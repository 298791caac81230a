import Mathlib.Data.List.Nodup
import Ekg.Command.MapToCommand
import Ekg.Epics.ServiceManager

/-!
# The acquire worker

`AcquireCommandWorker` keeps, for every channel, the list of the topics its updates go to, and
tells the EPICS service manager which channels are still needed.  `acquireManagement` is the task
that one monitor command becomes: it updates the list of the channel, reads whether the list is
empty, and calls `monitorChannel` with the answer.

The three parts are three definitions, because the pool may run them interleaved with those of
other tasks.  `acquireManagement` puts them together again, as one thread alone would.

The last section is about a registration that fails: the service manager takes its entry out again,
the worker does not, and nobody catches the exception.
-/

set_option autoImplicit false

namespace Ekg

/-- `ChannelTopicsMap`. -/
abbrev ChannelTopicsMap := Std.ExtTreeMap String (List String)

namespace ChannelTopicsMap

/-- The topics of a channel: none if the map has no entry for it. -/
def topics (map : ChannelTopicsMap) (channelName : String) : List String :=
  map.getD channelName []

/-- The lookup `channel_topics_map[channelName]`, which makes an empty entry if there is none. -/
def lookup (map : ChannelTopicsMap) (channelName : String) : ChannelTopicsMap :=
  map.insertIfNew channelName []

/-- The first part of `acquireManagement`: the update of the topic list. -/
def update (command : AquireCommand) (map : ChannelTopicsMap) : ChannelTopicsMap :=
  let map := map.lookup command.channelName
  let vec := map.topics command.channelName
  if command.activate then
    if command.destinationTopic ∈ vec then map
    else map.insert command.channelName (vec ++ [command.destinationTopic])
  else
    if command.destinationTopic ∈ vec then
      map.insert command.channelName (vec.erase command.destinationTopic)
    else map

/-- The second part: whether the list has any topic. -/
def needed (map : ChannelTopicsMap) (channelName : String) : Bool :=
  (map.topics channelName).length != 0

variable {map : ChannelTopicsMap} {channelName c t : String} {command : AquireCommand}

@[simp] theorem topics_empty : topics ∅ c = [] := by simp [topics]

@[simp] theorem topics_insert (map : ChannelTopicsMap) (channelName : String) (vec : List String) :
    topics (map.insert channelName vec) c = if channelName = c then vec else map.topics c := by
  simp [topics, Std.ExtTreeMap.getD_insert]

@[simp] theorem topics_lookup (map : ChannelTopicsMap) (channelName : String) :
    (map.lookup channelName).topics c = map.topics c := by
  rw [topics, lookup, Std.ExtTreeMap.getD_insertIfNew]
  split
  · rename_i h
    rw [Std.LawfulEqCmp.compare_eq_iff_eq] at h
    rw [topics, ← h.1, Std.ExtTreeMap.getD_eq_fallback h.2]
  · rfl

theorem needed_iff : map.needed c = true ↔ map.topics c ≠ [] := by
  simp [needed]

/-- The new list of the channel that a command is about. -/
def updated (command : AquireCommand) (vec : List String) : List String :=
  if command.activate then
    if command.destinationTopic ∈ vec then vec else vec ++ [command.destinationTopic]
  else vec.erase command.destinationTopic

/-- **What an update does**: one list changes, and only that one. -/
theorem topics_update (command : AquireCommand) (map : ChannelTopicsMap) (c : String) :
    (map.update command).topics c =
      if command.channelName = c then updated command (map.topics c) else map.topics c := by
  simp only [update, updated, topics_lookup]
  by_cases hc : command.channelName = c
  · subst hc
    by_cases hmem : command.destinationTopic ∈ map.topics command.channelName <;>
      cases command.activate <;> simp [hmem, List.erase_of_not_mem]
  · rw [if_neg hc]
    split <;> split <;> simp [hc]

theorem nodup_updated {vec : List String} (h : vec.Nodup) : (updated command vec).Nodup := by
  rw [updated]
  split
  · split
    · exact h
    · rename_i hmem
      exact List.nodup_append.mpr ⟨h, List.nodup_singleton _, by
        rintro a ha b hb rfl
        exact hmem (List.mem_singleton.mp hb ▸ ha)⟩
  · exact h.erase _

/-- A list without duplicates has a topic after a command as the command says. -/
theorem mem_updated {vec : List String} (h : vec.Nodup) :
    t ∈ updated command vec ↔
      if command.destinationTopic = t then command.activate = true else t ∈ vec := by
  rw [updated]
  split
  · rename_i hact
    split <;> rename_i hmem <;> split <;> rename_i ht
    · simp [hact, ← ht, hmem]
    · rfl
    · simp [hact, ht]
    · simp [Ne.symm ht]
  · rename_i hact
    rw [h.mem_erase_iff]
    split <;> rename_i ht
    · simp [hact, ht]
    · simp [Ne.symm ht]

end ChannelTopicsMap

/-! ## One task -/

/-- What `acquireManagement` works on: the topic map of the worker, and the service manager. -/
structure AcquireState where
  /-- `channel_topics_map`. -/
  channelTopicsMap : ChannelTopicsMap := ∅
  /-- `epics_service_manager`. -/
  manager : EpicsServiceManager := .empty

namespace AcquireState

/-- The topics that are subscribed for a channel. -/
def topics (s : AcquireState) (channelName : String) : List String :=
  s.channelTopicsMap.topics channelName

/-- The EPICS channel that is monitored under a name. -/
def channel? (s : AcquireState) (channelName : String) : Option EpicsChannel :=
  s.manager.channelMap[channelName]?

/-- The service manager monitors a channel of this name. -/
def Monitored (s : AcquireState) (channelName : String) : Prop :=
  channelName ∈ s.manager.channelMap

instance (s : AcquireState) (channelName : String) : Decidable (s.Monitored channelName) :=
  inferInstanceAs (Decidable (_ ∈ _))

theorem monitored_iff {s : AcquireState} {c : String} :
    s.Monitored c ↔ (s.channel? c).isSome := by
  rw [Monitored, channel?, Std.ExtTreeMap.mem_iff_isSome_getElem?]

end AcquireState

/-- `AcquireCommandWorker::acquireManagement`, run without interruption.  The result is the
exception that leaves the task, if one does. -/
def acquireManagement (failure : Option SetupFailure) (command : AquireCommand)
    (s : AcquireState) : AcquireState × Except String Unit :=
  let channelTopicsMap := s.channelTopicsMap.update command
  let activate := channelTopicsMap.needed command.channelName
  let r := s.manager.monitorChannel failure command.channelName activate
  ({ channelTopicsMap, manager := r.1 }, r.2)

/-- One task on which `addChannel` does not fail. -/
def acquire (s : AcquireState) (command : AquireCommand) : AcquireState :=
  (acquireManagement none command s).1

/-- The tasks of a list of commands, one at a time. -/
def acquireAll (s : AcquireState) (commands : List AquireCommand) : AcquireState :=
  commands.foldl acquire s

theorem acquireAll_concat (s : AcquireState) (commands : List AquireCommand)
    (command : AquireCommand) :
    acquireAll s (commands ++ [command]) = acquire (acquireAll s commands) command := by
  rw [acquireAll, List.foldl_append]
  rfl

namespace AcquireState

variable {s : AcquireState} {command : AquireCommand} {c t : String}

theorem topics_acquire (s : AcquireState) (command : AquireCommand) (c : String) :
    (acquire s command).topics c =
      if command.channelName = c then ChannelTopicsMap.updated command (s.topics c)
      else s.topics c :=
  ChannelTopicsMap.topics_update command s.channelTopicsMap c

theorem channel?_acquire (s : AcquireState) (command : AquireCommand) (c : String) :
    (acquire s command).channel? c =
      if command.channelName = c then
        if ((acquire s command).topics c) ≠ [] then
          (s.channel? c).or (some (startedChannel s.manager.allocations c "pva"))
        else none
      else s.channel? c := by
  have h := EpicsServiceManager.getElem?_monitorChannel s.manager command.channelName
    ((s.channelTopicsMap.update command).needed command.channelName) c
  by_cases hc : command.channelName = c
  · subst hc
    simp only [if_true, ChannelTopicsMap.needed_iff] at h ⊢
    exact h
  · rw [if_neg hc] at h ⊢
    exact h

theorem monitored_acquire (s : AcquireState) (command : AquireCommand) (c : String) :
    (acquire s command).Monitored c ↔
      if command.channelName = c then (acquire s command).topics c ≠ [] else s.Monitored c := by
  rw [monitored_iff, channel?_acquire, monitored_iff]
  split
  · split <;> simp [*]
  · rfl

end AcquireState

/-! ## A registration that fails -/

/-- What a failed registration should leave behind: nothing. -/
structure LeavesNoTrace (failure : Option SetupFailure) (command : AquireCommand)
    (s : AcquireState) : Prop where
  topics : ∀ c, (acquireManagement failure command s).1.topics c = s.topics c
  channelMap : (acquireManagement failure command s).1.manager.channelMap = s.manager.channelMap
  /-- No exception leaves the task. -/
  contained : (acquireManagement failure command s).2 = .ok ()

section Throws

variable {failure : Option SetupFailure} {command : AquireCommand} {s : AcquireState}
  {what : String}

/-- The channel of a command that activates has a topic, so it is registered. -/
theorem acquireManagement_of_activate (hactivate : command.activate = true) :
    acquireManagement failure command s =
      ({ channelTopicsMap := s.channelTopicsMap.update command,
         manager := (s.manager.addChannel failure command.channelName).1 },
        (s.manager.addChannel failure command.channelName).2) := by
  have hneeded : (s.channelTopicsMap.update command).needed command.channelName = true := by
    rw [ChannelTopicsMap.needed_iff, ChannelTopicsMap.topics_update, if_pos rfl,
      ChannelTopicsMap.updated, if_pos hactivate]
    split
    · rename_i hmem
      exact List.ne_nil_of_mem hmem
    · simp
  simp only [acquireManagement, hneeded, EpicsServiceManager.monitorChannel, if_true]

/-- **What a failed registration leaves behind**: the topic, which stays in the list of a channel
that is not monitored, and the exception, which leaves the task.  The channel map is as before. -/
theorem acquireManagement_of_throws (hactivate : command.activate = true)
    (hthrows : (s.manager.addChannel failure command.channelName).2 = .error what) :
    (acquireManagement failure command s).2 = .error what ∧
      (acquireManagement failure command s).1.manager.channelMap = s.manager.channelMap ∧
      ((∀ c, (acquireManagement failure command s).1.topics c = s.topics c) ↔
        command.destinationTopic ∈ s.topics command.channelName) := by
  rw [acquireManagement_of_activate hactivate]
  refine ⟨hthrows, EpicsServiceManager.channelMap_addChannel_of_error hthrows, ?_⟩
  have htopics : ∀ c, (s.channelTopicsMap.update command).topics c =
      if command.channelName = c then
        if command.destinationTopic ∈ s.topics c then s.topics c
        else s.topics c ++ [command.destinationTopic]
      else s.topics c := fun c ↦ by
    rw [ChannelTopicsMap.topics_update, ChannelTopicsMap.updated, if_pos hactivate]
    rfl
  refine ⟨fun hsame ↦ ?_, fun hmem c ↦ (htopics c).trans ?_⟩
  · have hlist := (htopics command.channelName).symm.trans (hsame command.channelName)
    by_contra hmem
    rw [if_pos rfl, if_neg hmem] at hlist
    simp at hlist
  · split
    · rename_i hc
      rw [if_pos (hc ▸ hmem)]
    · rfl

/-- **A failed registration leaves a trace**, in every state. -/
theorem not_leavesNoTrace (hactivate : command.activate = true)
    (hthrows : (s.manager.addChannel failure command.channelName).2 = .error what) :
    ¬ LeavesNoTrace failure command s := by
  intro h
  cases h.contained.symm.trans (acquireManagement_of_throws hactivate hthrows).1

/-- A channel that cannot be connected. -/
theorem not_leavesNoTrace_wrong :
    ¬ LeavesNoTrace (some ⟨.connect, true⟩) ⟨"pva", "wrong", true, "topic"⟩ {} := by
  have hthrows : (EpicsServiceManager.empty.addChannel (some ⟨.connect, true⟩) "wrong").2 =
      .error "std::exception" := rfl
  exact not_leavesNoTrace rfl hthrows

/-- The same, and the topic is in the list afterwards. -/
theorem leavesTrace_wrong :
    ¬ LeavesNoTrace (some ⟨.connect, true⟩) ⟨"pva", "wrong", true, "topic"⟩ {} ∧
      (acquireManagement (some ⟨.connect, true⟩) ⟨"pva", "wrong", true, "topic"⟩ {}).1.topics
        "wrong" = ["topic"] := by
  refine ⟨fun h ↦ ?_, by decide⟩
  exact absurd (h.topics "wrong") (by decide)

end Throws

end Ekg
