import Ekg.Node.TopicLists

/-!
# Every update reaches every topic once

`scan_publishes` follows the updates through one scan that nothing interrupts.  Here the tasks of
other commands run in between, and the client library goes on appending updates to the queue of a
channel.  An update of the channel is then in one of three places: in that queue; with the
scheduler, which has drained the queue and not yet called the handler of the worker; or with the
publisher, as a message for the topic.

`values` reads the three places one after the other, and no step loses, repeats or reorders anything
in it as long as nobody takes the topic away: `values_of_run`.  How long an update is on its way is
up to the scheduler: what is there when a scan begins is with the publisher when the scan is over
(`published_of_scan`), if the client library has announced it.
-/

set_option autoImplicit false

namespace Ekg

open Steps

namespace EpicsServiceManager

variable {m : EpicsServiceManager} {failure : Option SetupFailure} {channelName name : String}

/-- No handler is registered or removed with a channel. -/
theorem handlerBroadcaster_monitorChannel (activate : Bool) :
    (m.monitorChannel failure channelName activate).1.handlerBroadcaster =
      m.handlerBroadcaster := by
  rw [monitorChannel]
  split
  · rw [addChannel]
    split
    · rfl
    · split <;> rfl
  · rfl

/-- The other channels stay what they are, whether the channel can be set up or not. -/
theorem getElem?_monitorChannel_of_ne (hne : channelName ≠ name) (activate : Bool) :
    (m.monitorChannel failure channelName activate).1.channelMap[name]? = m.channelMap[name]? := by
  cases failure with
  | none => rw [getElem?_monitorChannel, if_neg hne]
  | some f =>
    cases activate with
    | true =>
      rw [monitorChannel, if_pos rfl, channelMap_addChannel_some]
    | false =>
      simp [monitorChannel, removeChannel, Std.ExtTreeMap.getElem?_erase, hne]

/-- A channel that is monitored already stays what it is when it is asked for again. -/
theorem monitorChannel_of_mem (h : channelName ∈ m.channelMap) :
    (m.monitorChannel failure channelName true).1 = m := by
  rw [monitorChannel, if_pos rfl, addChannel_of_mem h]

end EpicsServiceManager

/-! ## The three places -/

/-- What a message is worth to the topic `t` of the channel `c`. -/
def ThreadEvent.valueFor? (c t : String) : ThreadEvent → Option String
  | published message =>
    if message.distributionKey = c ∧ message.queue = t then some message.buffer else none
  | _ => none

/-- The update of channel `c` that an event carries. -/
def MonitorEvent.updateOf? (c : String) (e : MonitorEvent) : Option PVStructure :=
  if e.type = .data ∧ e.channelName = c then e.data else none

/-- The updates of channel `c` that the scheduler has drained, and not given to the worker. -/
def ScanPoint.drained (worker : ℕ) (c : String) : ScanPoint → List PVStructure
  | calling eventData targets _ =>
    if worker ∈ targets then eventData.filterMap (MonitorEvent.updateOf? c) else []
  | handling eventData _ _ => eventData.filterMap (MonitorEvent.updateOf? c)
  | _ => []

/-- The channels that the scan has still to look at. -/
def ScanPoint.rest : ScanPoint → List String
  | sleeping => []
  | scanning rest | calling _ _ rest | handling _ _ rest => rest

/-- The updates of channel `c` in the queue of the client library. -/
def Shared.queued (c : String) (s : Shared) : List PVStructure :=
  ((s.state.manager.channelMap[c]?).map fun ch ↦ ch.mon.queue).getD []

namespace Threads

variable {platform : Platform} {σ τ ρ : Threads} {i j : ℕ} {command : AquireCommand}
  {failure : Option SetupFailure} {s s' : Shared} {point point' : TaskPoint} {a : ThreadStep}
  {scan scan' : ScanPoint} {keptOut : Bool} {alive : ℕ → Bool} {c t : String} {worker : ℕ}
  {updates : List PVStructure} {sched : List ThreadStep}

/-- The values for the topic `t` of the channel `c`: those that were published, then those that are
on their way. -/
def values (worker : ℕ) (c t : String) (σ : Threads) : List String :=
  σ.shared.log.filterMap (ThreadEvent.valueFor? c t) ++
    (σ.scan.drained worker c ++ σ.shared.queued c).map PVStructure.renderValue

/-- Some topics of which one is `t`. -/
theorem filterMap_eq_of_count {topics : List String} (h : topics.count t = 1) (value : String) :
    topics.filterMap (fun topic ↦ if topic = t then some value else none) = [value] := by
  have hreplicate : ∀ topics : List String,
      topics.filterMap (fun topic ↦ if topic = t then some value else none) =
        List.replicate (topics.count t) value := by
    intro topics
    induction topics with
    | nil => rfl
    | cons topic topics ih =>
      rw [List.filterMap_cons, List.count_cons]
      by_cases ht : topic = t
      · simp [ht, ih, List.replicate_succ]
      · simp [ht, ih]
  rw [hreplicate, h]
  rfl

/-- The messages of an event that are for the topic. -/
theorem filterMap_eventMessages {topics : String → List String} (h : (topics c).count t = 1)
    (e : MonitorEvent) :
    ((eventMessages topics e).map ThreadEvent.published).filterMap (ThreadEvent.valueFor? c t) =
      (MonitorEvent.updateOf? c e).toList.map PVStructure.renderValue := by
  rw [List.filterMap_map, eventMessages, MonitorEvent.updateOf?]
  by_cases hdata : e.type = .data
  · obtain ⟨root, hroot⟩ := Option.isSome_iff_exists.mp (e.hasData hdata)
    simp only [hdata, hroot, dif_pos, updateMessages, List.filterMap_map, Option.get_some, true_and]
    by_cases hc : e.channelName = c
    · simp only [hc, if_true, Option.toList_some, List.map_cons, List.map_nil]
      rw [← filterMap_eq_of_count h root.renderValue]
      refine List.filterMap_congr fun topic _ ↦ ?_
      simp [Function.comp, ThreadEvent.valueFor?]
    · simp [hc, Function.comp_def, ThreadEvent.valueFor?]
  · simp [hdata]

/-- The messages of some events that are for the topic. -/
theorem filterMap_flatMap_eventMessages {topics : String → List String}
    (h : (topics c).count t = 1) (eventData : List MonitorEvent) :
    ((eventData.flatMap (eventMessages topics)).map ThreadEvent.published).filterMap
        (ThreadEvent.valueFor? c t) =
      (eventData.filterMap (MonitorEvent.updateOf? c)).map PVStructure.renderValue := by
  induction eventData with
  | nil => rfl
  | cons e eventData ih =>
    rw [List.flatMap_cons, List.map_append, List.filterMap_append, filterMap_eventMessages h, ih]
    cases he : MonitorEvent.updateOf? c e <;> simp [he]

/-! ## While nobody takes the topic away -/

/-- At this point an activation has not read that its channel has no topics. -/
def adds : TaskPoint → Bool
  | .queued | .absent | .pushing | .updated | .finished => true
  | .decided activate | .monitoring activate => activate
  | _ => false

/-- The task leaves the topic `t` of the channel `c` alone: it is for another channel, or it
activates another topic. -/
def Harmless (c t : String) (command : AquireCommand) (point : TaskPoint) : Prop :=
  command.channelName = c →
    command.activate = true ∧ command.destinationTopic ≠ t ∧ adds point = true

/-- The handler of the worker has one turn left in the broadcast, or none. -/
def Turn (worker : ℕ) : ScanPoint → Prop
  | .calling _ targets _ => targets.count worker ≤ 1
  | .handling _ targets _ => worker ∉ targets
  | _ => True

/-- The topic is subscribed, the channel monitored and the worker registered; and the tasks that go
on leave it at that. -/
structure Steady (worker : ℕ) (c t : String) (goes : ℕ → Prop) (σ : Threads) : Prop where
  topic : (σ.shared.topics c).count t = 1
  channel : c ∈ σ.shared.state.manager.channelMap
  registered : σ.shared.state.manager.handlerBroadcaster.targets.count worker = 1
  turn : Turn worker σ.scan
  tasks : ∀ i, goes i → ∀ command point, σ.tasks[i]? = some (command, point) →
    Harmless c t command point

/-- What `monitorChannel` leaves in the log is no message. -/
theorem filterMap_monitorRecord (channelName : String) (activate : Bool)
    (before after : EpicsServiceManager) :
    (monitorRecord channelName activate before after).filterMap (ThreadEvent.valueFor? c t) =
      [] := by
  rw [monitorRecord]
  split
  · split <;> rfl
  · rfl

/-- What a harmless task does to the values and to what they depend on: nothing. -/
theorem advanceTask_of_harmless
    (h : advanceTask platform i command failure s point = some (point', s'))
    (hharmless : Harmless c t command point) (htopic : (s.topics c).count t = 1)
    (hchannel : c ∈ s.state.manager.channelMap) :
    Harmless c t command point' ∧ (s'.topics c).count t = 1 ∧
      s'.state.manager.channelMap[c]? = s.state.manager.channelMap[c]? ∧
      s'.state.manager.handlerBroadcaster = s.state.manager.handlerBroadcaster ∧
      s'.log.filterMap (ThreadEvent.valueFor? c t) =
        s.log.filterMap (ThreadEvent.valueFor? c t) := by
  cases point with
  | queued =>
    rw [advanceTask_queued, Option.some_inj, Prod.mk.injEq] at h
    obtain ⟨rfl, rfl⟩ := h
    refine ⟨fun hc ↦ ?_, ?_, rfl, rfl, by simp [ThreadEvent.valueFor?]⟩
    · obtain ⟨hactivate, hne, -⟩ := hharmless hc
      refine ⟨hactivate, hne, ?_⟩
      rw [if_pos hactivate]
      split <;> rfl
    · exact (congrArg (List.count t) (ChannelTopicsMap.topics_lookup _ _)).trans htopic
  | absent | present itr =>
    obtain ⟨mtx, -, heq⟩ := Option.map_eq_some_iff.mp h
    cases heq
    exact ⟨hharmless, htopic, rfl, rfl, rfl⟩
  | pushing =>
    cases h
    refine ⟨fun hc ↦ ?_, ?_, rfl, rfl,
      by simp [Shared.record, Shared.setTopics, ThreadEvent.valueFor?]⟩
    · obtain ⟨hactivate, hne, -⟩ := hharmless hc
      exact ⟨hactivate, hne, rfl⟩
    · simp only [Shared.topics_record, Shared.topics_setTopics]
      split
      · rename_i hc
        rw [List.count_append, hc, htopic, List.count_eq_zero_of_not_mem]
        exact fun hmem ↦ (hharmless hc).2.1 (List.mem_singleton.mp hmem).symm
      · exact htopic
  | erasing itr =>
    have hne : command.channelName ≠ c := fun hc ↦
      Bool.false_ne_true (hharmless hc).2.2
    cases h
    refine ⟨fun hc ↦ absurd hc hne, ?_, rfl, rfl,
      by simp [Shared.record, Shared.setTopics, ThreadEvent.valueFor?]⟩
    simp only [Shared.topics_record, Shared.topics_setTopics, if_neg hne]
    exact htopic
  | updated =>
    cases h
    refine ⟨fun hc ↦ ?_, htopic, rfl, rfl, rfl⟩
    obtain ⟨hactivate, hne, -⟩ := hharmless hc
    refine ⟨hactivate, hne, ?_⟩
    -- the topic `t` is in the list
    have hmem : t ∈ s.state.channelTopicsMap.topics c := List.count_pos_iff.mp (by
      have hcount : (s.state.channelTopicsMap.topics c).count t = 1 := htopic
      omega)
    rw [adds, hc, ChannelTopicsMap.needed_iff]
    exact List.ne_nil_of_mem hmem
  | decided activate =>
    simp only [advanceTask, Option.ite_none_right_eq_some, Option.some_inj, Prod.mk.injEq] at h
    obtain ⟨-, rfl, rfl⟩ := h
    exact ⟨hharmless, htopic, rfl, rfl, rfl⟩
  | monitoring activate =>
    cases h
    refine ⟨fun hc ↦ ?_, htopic, ?_, EpicsServiceManager.handlerBroadcaster_monitorChannel _, ?_⟩
    · obtain ⟨hactivate, hne, -⟩ := hharmless hc
      exact ⟨hactivate, hne, rfl⟩
    · by_cases hc : command.channelName = c
      · have hactivate : activate = true := (hharmless hc).2.2
        subst hactivate
        subst hc
        exact congrArg (fun m : EpicsServiceManager ↦ m.channelMap[command.channelName]?)
          (EpicsServiceManager.monitorChannel_of_mem hchannel)
      · exact EpicsServiceManager.getElem?_monitorChannel_of_ne hc activate
    · simp only [Shared.record, List.filterMap_append, filterMap_monitorRecord, List.nil_append]
      exact List.append_nil _
  | finished => cases h

/-- What the scheduler takes from a channel it has at hand. -/
theorem updates_monitor (ch : EpicsChannel) :
    ch.monitor.1.filterMap (MonitorEvent.updateOf? ch.channelName) ++ ch.monitor.2.mon.queue =
      ch.mon.queue := by
  rw [EpicsChannel.monitor]
  cases ch.mon.pending with
  | none => rfl
  | some e =>
    cases e with
    | data =>
      rw [EpicsChannel.drain_eq_map, List.filterMap_map]
      have hsome : MonitorEvent.updateOf? ch.channelName ∘
          MonitorEvent.ofUpdate ch.channelName ch.mon.message = some := by
        funext root
        simp [MonitorEvent.updateOf?, MonitorEvent.ofUpdate]
      rw [hsome, List.filterMap_some]
      exact List.append_nil _
    | _ => simp [MonitorEvent.updateOf?]

/-- Another channel has no updates of this one. -/
theorem updates_monitor_of_ne {ch : EpicsChannel} (hne : ch.channelName ≠ c) :
    ch.monitor.1.filterMap (MonitorEvent.updateOf? c) = [] := by
  refine List.filterMap_eq_nil_iff.mpr fun e he ↦ ?_
  rw [MonitorEvent.updateOf?, if_neg]
  rintro ⟨-, heq⟩
  exact hne ((EpicsChannel.channelName_of_mem_monitor he).symm.trans heq)

/-- What the scheduler takes from one channel comes out of the queue of that channel. -/
theorem queued_monitored {name : String} {ch : EpicsChannel}
    (hch : s.state.manager.channelMap[name]? = some ch)
    (hs' : s'.state.manager.channelMap = (s.state.manager.monitored name).channelMap) :
    ch.monitor.1.filterMap (MonitorEvent.updateOf? c) ++ s'.queued c = s.queued c := by
  have hname := s.state.manager.inv.named name ch hch
  rw [Shared.queued, Shared.queued, hs', EpicsServiceManager.getElem?_monitored]
  by_cases hc : name = c
  · subst hc
    rw [if_pos rfl, hch]
    have hupdates := updates_monitor ch
    rw [hname] at hupdates
    exact hupdates
  · rw [if_neg hc, updates_monitor_of_ne (by rwa [hname]), List.nil_append]

/-- The worker stays registered while it is alive, and a broadcast calls its handler once. -/
theorem registered_advanceScan
    (h : advanceScan platform keptOut alive s scan = some (scan', s'))
    (halive : alive platform.worker = true)
    (hregistered : s.state.manager.handlerBroadcaster.targets.count platform.worker = 1)
    (hturn : Turn platform.worker scan) :
    s'.state.manager.handlerBroadcaster.targets.count platform.worker = 1 ∧
      Turn platform.worker scan' := by
  cases scan with
  | sleeping =>
    simp only [advanceScan, Option.ite_none_right_eq_some, Option.some_inj, Prod.mk.injEq] at h
    obtain ⟨-, rfl, rfl⟩ := h
    exact ⟨hregistered, trivial⟩
  | scanning rest =>
    cases rest with
    | nil =>
      cases h
      exact ⟨hregistered, trivial⟩
    | cons name rest =>
      simp only [advanceScan] at h
      split at h
      · cases h
        exact ⟨hregistered, trivial⟩
      · split at h
        · cases h
          exact ⟨hregistered, trivial⟩
        · cases h
          have hcount : (s.state.manager.handlerBroadcaster.targets.filter alive).count
              platform.worker = 1 := by rw [List.count_filter halive, hregistered]
          exact ⟨hcount, hcount.le⟩
  | calling eventData targets rest =>
    cases targets with
    | nil =>
      cases h
      exact ⟨hregistered, trivial⟩
    | cons wp targets =>
      have hcount : (wp :: targets).count platform.worker ≤ 1 := hturn
      rw [List.count_cons] at hcount
      simp only [advanceScan] at h
      split at h
      · split at h
        · rename_i hwp
          obtain ⟨mtx, -, heq⟩ := Option.map_eq_some_iff.mp h
          cases heq
          refine ⟨hregistered, fun hmem ↦ ?_⟩
          have hpos := List.count_pos_iff.mpr hmem
          simp only [hwp, beq_self_eq_true, if_true] at hcount
          omega
        · cases h
          exact ⟨hregistered, Nat.le_of_add_right_le hcount⟩
      · cases h
        exact ⟨hregistered, Nat.le_of_add_right_le hcount⟩
  | handling eventData targets rest =>
    cases h
    exact ⟨hregistered, (List.count_eq_zero_of_not_mem hturn).le.trans (Nat.zero_le 1)⟩

/-- What a scan does to the values, while the worker is alive: nothing. -/
theorem values_advanceScan (tasks : List (AquireCommand × TaskPoint))
    (h : advanceScan platform keptOut alive s scan = some (scan', s'))
    (halive : alive platform.worker = true) (htopic : (s.topics c).count t = 1)
    (hregistered : s.state.manager.handlerBroadcaster.targets.count platform.worker = 1)
    (hturn : Turn platform.worker scan) :
    values platform.worker c t ⟨tasks, scan', s'⟩ =
      values platform.worker c t ⟨tasks, scan, s⟩ := by
  cases scan with
  | sleeping =>
    simp only [advanceScan, Option.ite_none_right_eq_some, Option.some_inj, Prod.mk.injEq] at h
    obtain ⟨-, rfl, rfl⟩ := h
    rfl
  | scanning rest =>
    cases rest with
    | nil =>
      cases h
      rfl
    | cons name rest =>
      simp only [advanceScan] at h
      split at h
      · cases h
        rfl
      · rename_i ch hch
        have hqueued : ch.monitor.1.filterMap (MonitorEvent.updateOf? c) ++ Shared.queued c { s with
            state := { s.state with manager := s.state.manager.monitored name } } = s.queued c :=
          queued_monitored hch rfl
        split at h
        · -- the worker is registered, so there was nothing to report
          rename_i hnothing
          have hnil : ch.monitor.1 = [] := by
            refine List.eq_nil_of_length_eq_zero (hnothing.resolve_right fun hlen ↦ ?_)
            have htargets : s.state.manager.handlerBroadcaster.targets = [] :=
              List.eq_nil_of_length_eq_zero hlen
            rw [htargets] at hregistered
            cases hregistered
          cases h
          rw [hnil] at hqueued
          simp only [values, ScanPoint.drained]
          rw [← hqueued]
          rfl
        · cases h
          have hcount : (s.state.manager.handlerBroadcaster.targets.filter alive).count
              platform.worker = 1 := by rw [List.count_filter halive, hregistered]
          have hmem : platform.worker ∈ s.state.manager.handlerBroadcaster.targets.filter alive :=
            List.count_pos_iff.mp (by omega)
          simp only [values, ScanPoint.drained]
          rw [← hqueued, List.nil_append]
          exact congrArg _ (congrArg _ (congrArg (· ++ _) (if_pos hmem)))
  | calling eventData targets rest =>
    cases targets with
    | nil =>
      cases h
      simp [values, ScanPoint.drained]
    | cons wp targets =>
      simp only [advanceScan] at h
      split at h
      · split at h
        · rename_i hwp
          obtain ⟨mtx, -, heq⟩ := Option.map_eq_some_iff.mp h
          cases heq
          simp [values, ScanPoint.drained, hwp, Shared.record, ThreadEvent.valueFor?, Shared.queued]
        · rename_i hwp
          cases h
          simp [values, ScanPoint.drained, Ne.symm hwp, Shared.record, ThreadEvent.valueFor?,
            Shared.queued]
      · rename_i hdead
        cases h
        have hwp : platform.worker ≠ wp := by
          rintro rfl
          exact hdead halive
        simp [values, ScanPoint.drained, hwp]
  | handling eventData targets rest =>
    have hnot : platform.worker ∉ targets := hturn
    obtain ⟨hpublisher, -⟩ := epicsMonitorEvent_spec (logPublisher platform.reply) eventData
      ⟨s.state.channelTopicsMap, s.log⟩
    cases h
    have hpushed := filterMap_flatMap_eventMessages htopic eventData
    simp only [values, ScanPoint.drained, if_neg hnot, List.nil_append]
    rw [hpublisher, pushAll_logPublisher, List.filterMap_append, List.map_append,
      ← List.append_assoc, ← hpushed]
    rfl

/-! ## Whole runs -/

theorem Steady.task {goes : ℕ → Prop} (hσ : σ.Steady worker c t goes) (hi : goes i)
    (h : step platform σ (.task i failure) = some τ) :
    τ.Steady worker c t goes ∧ values worker c t τ = values worker c t σ := by
  obtain ⟨command, point, point', s, htask, hadv, rfl⟩ := step_task_eq_some.mp h
  obtain ⟨hharmless, htopic, hchannel, hbroadcaster, hlog⟩ :=
    advanceTask_of_harmless hadv (hσ.tasks i hi command point htask) hσ.topic hσ.channel
  refine ⟨⟨htopic, ?_, ?_, hσ.turn, fun j hj command' point'' hjtask ↦ ?_⟩, ?_⟩
  · rw [Std.ExtTreeMap.mem_iff_isSome_getElem?, hchannel, ← Std.ExtTreeMap.mem_iff_isSome_getElem?]
    exact hσ.channel
  · rw [hbroadcaster]
    exact hσ.registered
  · by_cases hij : i = j
    · subst hij
      rw [List.getElem?_set_self (List.getElem?_eq_some_iff.mp htask).1] at hjtask
      cases hjtask
      exact hharmless
    · rw [List.getElem?_set_ne hij] at hjtask
      exact hσ.tasks j hj command' point'' hjtask
  · simp only [values, Shared.queued, hlog, hchannel]

theorem Steady.scheduler {goes : ℕ → Prop} (hσ : σ.Steady platform.worker c t goes)
    (halive : alive platform.worker = true)
    (h : step platform σ (.scheduler alive) = some τ) :
    τ.Steady platform.worker c t goes ∧
      values platform.worker c t τ = values platform.worker c t σ := by
  obtain ⟨scan, s, hadv, rfl⟩ := step_scheduler_eq_some.mp h
  obtain ⟨events, heffect⟩ := exists_scanEffect hadv
  have hvalues := values_advanceScan σ.tasks hadv halive hσ.topic hσ.registered hσ.turn
  obtain ⟨hregistered, hturn⟩ := registered_advanceScan hadv halive hσ.registered hσ.turn
  refine ⟨⟨?_, (heffect.mem_channelMap c).mpr hσ.channel, hregistered, hturn, hσ.tasks⟩, hvalues⟩
  rw [heffect.topics]
  exact hσ.topic

/-- The client library appends to the queue of a channel. -/
theorem Steady.arrive {goes : ℕ → Prop} {channelName : String} {mon : MonitorSync}
    (hσ : σ.Steady worker c t goes)
    (hmon : channelName = c → mon.queue = σ.shared.queued c ++ updates)
    (hother : channelName ≠ c → updates = [])
    (h : step platform σ (.arrive channelName mon) = some τ) :
    τ.Steady worker c t goes ∧
      values worker c t τ = values worker c t σ ++ updates.map PVStructure.renderValue := by
  cases h
  obtain ⟨ch, hch⟩ := Option.isSome_iff_exists.mp
    (Std.ExtTreeMap.mem_iff_isSome_getElem?.mp hσ.channel)
  refine ⟨⟨hσ.topic, (EpicsServiceManager.mem_withMon _ _ _ c).mpr hσ.channel, hσ.registered,
    hσ.turn, hσ.tasks⟩, ?_⟩
  have hqueued : Shared.queued c { σ.shared with
      state := { σ.shared.state with
        manager := σ.shared.state.manager.announce channelName mon } } =
      σ.shared.queued c ++ updates := by
    by_cases hc : channelName = c
    · rw [← hmon hc]
      subst hc
      simp [Shared.queued, EpicsServiceManager.announce, EpicsServiceManager.withMon, hch]
    · rw [hother hc, List.append_nil]
      simp [Shared.queued, EpicsServiceManager.announce, EpicsServiceManager.withMon,
        Std.ExtTreeMap.getElem?_modify, hc]
  simp only [values]
  rw [hqueued]
  simp

/-- A run during which the client library appends `updates` to the queue of the channel `c`, and in
which it finds the worker alive whenever a handler is called. -/
inductive Receives (platform : Platform) (c : String) :
    Threads → List ThreadStep → List PVStructure → Threads → Prop
  | nil (σ : Threads) : Receives platform c σ [] [] σ
  | task {σ ρ τ : Threads} {i : ℕ} {failure : Option SetupFailure} {sched : List ThreadStep}
      {updates : List PVStructure} (hstep : step platform σ (.task i failure) = some ρ)
      (hrest : Receives platform c ρ sched updates τ) :
      Receives platform c σ (.task i failure :: sched) updates τ
  | scheduler {σ ρ τ : Threads} {alive : ℕ → Bool} {sched : List ThreadStep}
      {updates : List PVStructure} (halive : alive platform.worker = true)
      (hstep : step platform σ (.scheduler alive) = some ρ)
      (hrest : Receives platform c ρ sched updates τ) :
      Receives platform c σ (.scheduler alive :: sched) updates τ
  | arrive {σ ρ τ : Threads} {mon : MonitorSync} {sched : List ThreadStep}
      {new updates : List PVStructure} (hmon : mon.queue = σ.shared.queued c ++ new)
      (hstep : step platform σ (.arrive c mon) = some ρ)
      (hrest : Receives platform c ρ sched updates τ) :
      Receives platform c σ (.arrive c mon :: sched) (new ++ updates) τ
  | other {σ ρ τ : Threads} {channelName : String} {mon : MonitorSync} {sched : List ThreadStep}
      {updates : List PVStructure} (hne : channelName ≠ c)
      (hstep : step platform σ (.arrive channelName mon) = some ρ)
      (hrest : Receives platform c ρ sched updates τ) :
      Receives platform c σ (.arrive channelName mon :: sched) updates τ

/-- **Every update is published to every topic once, and in order**, however the tasks of other
commands, the scans and the arrivals are interleaved: what is published for a topic is followed by
what is on its way to it, and the two together only grow by what arrives. -/
theorem values_of_run {goes : ℕ → Prop} (hσ : σ.Steady platform.worker c t goes)
    (hgoes : ∀ i failure, .task i failure ∈ sched → goes i)
    (hrun : Receives platform c σ sched updates τ) :
    τ.Steady platform.worker c t goes ∧
      values platform.worker c t τ =
        values platform.worker c t σ ++ updates.map PVStructure.renderValue := by
  induction hrun with
  | nil σ => exact ⟨hσ, (List.append_nil _).symm⟩
  | task hstep hrest ih =>
    obtain ⟨hρ, hvalues⟩ := hσ.task (hgoes _ _ List.mem_cons_self) hstep
    obtain ⟨hτ, hrest⟩ := ih hρ fun i failure hmem ↦ hgoes i failure (List.mem_cons_of_mem _ hmem)
    exact ⟨hτ, by rw [hrest, hvalues]⟩
  | scheduler halive hstep hrest ih =>
    obtain ⟨hρ, hvalues⟩ := hσ.scheduler halive hstep
    obtain ⟨hτ, hrest⟩ := ih hρ fun i failure hmem ↦ hgoes i failure (List.mem_cons_of_mem _ hmem)
    exact ⟨hτ, by rw [hrest, hvalues]⟩
  | arrive hmon hstep hrest ih =>
    obtain ⟨hρ, hvalues⟩ := hσ.arrive (fun _ ↦ hmon) (fun hne ↦ absurd rfl hne) hstep
    obtain ⟨hτ, hrest⟩ := ih hρ fun i failure hmem ↦ hgoes i failure (List.mem_cons_of_mem _ hmem)
    exact ⟨hτ, by rw [hrest, hvalues, List.map_append, List.append_assoc]⟩
  | other hne hstep hrest ih =>
    obtain ⟨hρ, hvalues⟩ := hσ.arrive (fun heq ↦ absurd heq hne) (fun _ ↦ rfl) hstep
    obtain ⟨hτ, hrest⟩ := ih hρ fun i failure hmem ↦ hgoes i failure (List.mem_cons_of_mem _ hmem)
    exact ⟨hτ, by rw [hrest, hvalues, List.map_nil, List.append_nil]⟩

/-! ## By the end of a scan -/

/-- Updates in the queue of the channel `c` have been announced. -/
def Announced (c : String) (s : Shared) : Prop :=
  ∀ ch, s.state.manager.channelMap[c]? = some ch → ch.mon.queue ≠ [] → ch.mon.pending = some .data

/-- What was published for the topic `t` of the channel `c`, and what is with the scheduler. -/
def carried (worker : ℕ) (c t : String) (σ : Threads) : List String :=
  σ.shared.log.filterMap (ThreadEvent.valueFor? c t) ++
    (σ.scan.drained worker c).map PVStructure.renderValue

theorem values_eq_carried (σ : Threads) :
    values worker c t σ =
      carried worker c t σ ++ (σ.shared.queued c).map PVStructure.renderValue := by
  rw [values, carried, List.map_append, List.append_assoc]

/-- A channel that has announced its updates gives them all. -/
theorem queue_monitor {ch : EpicsChannel} (h : ch.mon.queue ≠ [] → ch.mon.pending = some .data) :
    ch.monitor.2.mon.queue = [] := by
  rw [EpicsChannel.monitor]
  by_cases hqueue : ch.mon.queue = []
  · cases ch.mon.pending with
    | none => exact hqueue
    | some e => cases e <;> first | exact hqueue | rfl
  · rw [h hqueue]

/-- What the scheduler leaves of the queue of a channel that it monitors. -/
theorem queued_monitored_cases (s' : Shared) {name : String} {ch : EpicsChannel}
    (hch : s.state.manager.channelMap[name]? = some ch) (hannounced : Announced c s)
    (hs' : s'.state.manager.channelMap = (s.state.manager.monitored name).channelMap) :
    Announced c s' ∧ (s'.queued c = [] ∨ name ≠ c ∧ s'.queued c = s.queued c) := by
  rw [Announced, Shared.queued, Shared.queued, hs', EpicsServiceManager.getElem?_monitored]
  by_cases hname : name = c
  · subst hname
    have hempty := queue_monitor (hannounced ch hch)
    rw [if_pos rfl, hch]
    refine ⟨fun ch' hch' hne ↦ ?_, Or.inl hempty⟩
    cases hch'
    exact absurd hempty hne
  · rw [if_neg hname]
    exact ⟨hannounced, Or.inr ⟨hname, rfl⟩⟩

/-- A scan looks at the channel before it is over, and leaves its queue alone otherwise. -/
theorem queued_advanceScan (h : advanceScan platform keptOut alive s scan = some (scan', s'))
    (hchannel : c ∈ s.state.manager.channelMap) (hannounced : Announced c s) :
    Announced c s' ∧ (s'.queued c = [] ∨
      s'.queued c = s.queued c ∧ (scan = .sleeping ∨ c ∈ scan.rest → c ∈ scan'.rest)) := by
  cases scan with
  | sleeping =>
    obtain ⟨-, heq⟩ := Option.ite_none_right_eq_some.mp h
    cases heq
    exact ⟨hannounced, Or.inr ⟨rfl, fun _ ↦ Std.ExtTreeMap.mem_keys.mpr hchannel⟩⟩
  | scanning rest =>
    cases rest with
    | nil =>
      cases h
      exact ⟨hannounced, Or.inr ⟨rfl, fun hrest ↦ hrest.resolve_left ScanPoint.noConfusion⟩⟩
    | cons name rest =>
      rw [advanceScan] at h
      split at h
      · rename_i hnone
        cases h
        refine ⟨hannounced, Or.inr ⟨rfl, fun hrest ↦ ?_⟩⟩
        rcases List.mem_cons.mp (hrest.resolve_left ScanPoint.noConfusion) with rfl | hmem
        · rw [Std.ExtTreeMap.mem_iff_isSome_getElem?, hnone] at hchannel
          cases hchannel
        · exact hmem
      · rename_i ch hch
        dsimp only at h
        split at h
        all_goals
          cases h
          obtain ⟨hannounced', hempty | ⟨hne, hsame⟩⟩ :=
            queued_monitored_cases { s with
              state := { s.state with manager := s.state.manager.monitored name } }
              hch hannounced rfl
          · exact ⟨hannounced', Or.inl hempty⟩
          · refine ⟨hannounced', Or.inr ⟨hsame, fun hrest ↦ ?_⟩⟩
            exact (List.mem_cons.mp (hrest.resolve_left ScanPoint.noConfusion)).resolve_left
              (Ne.symm hne)
  | calling eventData targets rest =>
    cases targets with
    | nil =>
      cases h
      exact ⟨hannounced, Or.inr ⟨rfl, fun hrest ↦ hrest.resolve_left ScanPoint.noConfusion⟩⟩
    | cons wp targets =>
      rw [advanceScan] at h
      split at h
      · split at h
        · obtain ⟨mtx, -, heq⟩ := Option.map_eq_some_iff.mp h
          cases heq
          exact ⟨hannounced, Or.inr ⟨rfl, fun hrest ↦ hrest.resolve_left ScanPoint.noConfusion⟩⟩
        · cases h
          exact ⟨hannounced, Or.inr ⟨rfl, fun hrest ↦ hrest.resolve_left ScanPoint.noConfusion⟩⟩
      · cases h
        exact ⟨hannounced, Or.inr ⟨rfl, fun hrest ↦ hrest.resolve_left ScanPoint.noConfusion⟩⟩
  | handling eventData targets rest =>
    cases h
    exact ⟨hannounced, Or.inr ⟨rfl, fun hrest ↦ hrest.resolve_left ScanPoint.noConfusion⟩⟩

/-- The values `early` are carried already, or the scan has still to look at their channel. -/
structure Covers (worker : ℕ) (c t : String) (early : List String) (σ : Threads) : Prop where
  announced : Announced c σ.shared
  within : early <+: values worker c t σ
  covered : c ∈ σ.scan.rest ∨ early <+: carried worker c t σ

variable {early : List String}

theorem Covers.task {goes : ℕ → Prop} (hσ : σ.Steady worker c t goes)
    (hcovers : σ.Covers worker c t early) (hi : goes i)
    (h : step platform σ (.task i failure) = some τ) : τ.Covers worker c t early := by
  have hvalues := (hσ.task hi h).2
  obtain ⟨command, point, point', s, htask, hadv, rfl⟩ := step_task_eq_some.mp h
  obtain ⟨-, -, hchannel, -, hlog⟩ :=
    advanceTask_of_harmless hadv (hσ.tasks i hi command point htask) hσ.topic hσ.channel
  refine ⟨?_, hvalues ▸ hcovers.within, ?_⟩
  · rw [Announced, hchannel]
    exact hcovers.announced
  · rw [carried, hlog]
    exact hcovers.covered

/-- The scheduler goes on in a scan, or begins one. -/
theorem Covers.scheduler {goes : ℕ → Prop} (hσ : σ.Steady platform.worker c t goes)
    (hannounced : Announced c σ.shared) (hwithin : early <+: values platform.worker c t σ)
    (hcarried : σ.scan = .sleeping ∨ σ.Covers platform.worker c t early)
    (halive : alive platform.worker = true)
    (h : step platform σ (.scheduler alive) = some τ) : τ.Covers platform.worker c t early := by
  have hvalues := (hσ.scheduler halive h).2
  obtain ⟨scan, s, hadv, rfl⟩ := step_scheduler_eq_some.mp h
  obtain ⟨hannounced', hqueued⟩ := queued_advanceScan hadv hσ.channel hannounced
  refine ⟨hannounced', hvalues ▸ hwithin, ?_⟩
  rcases hqueued with hempty | ⟨hsame, hrest⟩
  · -- nothing is left in the queue, so what there is is carried
    right
    rw [values_eq_carried, hempty, List.map_nil, List.append_nil] at hvalues
    rw [hvalues]
    exact hwithin
  · have hcarried' : carried platform.worker c t ⟨σ.tasks, scan, s⟩ =
        carried platform.worker c t σ := by
      rw [values_eq_carried, values_eq_carried, hsame] at hvalues
      exact List.append_cancel_right hvalues
    rw [hcarried']
    rcases hcarried with hsleeping | hcovers
    · exact Or.inl (hrest (Or.inl hsleeping))
    · exact hcovers.covered.imp_left fun hmem ↦ hrest (Or.inr hmem)

theorem Covers.arrive {goes : ℕ → Prop} {channelName : String} {mon : MonitorSync}
    (hσ : σ.Steady worker c t goes) (hcovers : σ.Covers worker c t early)
    (hmon : channelName = c → mon.queue = σ.shared.queued c ++ updates)
    (hother : channelName ≠ c → updates = [])
    (hannounced : channelName = c → mon.queue ≠ [] → mon.pending = some .data)
    (h : step platform σ (.arrive channelName mon) = some τ) : τ.Covers worker c t early := by
  have hvalues := (hσ.arrive hmon hother h).2
  cases h
  refine ⟨fun ch hch ↦ ?_, ?_, hcovers.covered⟩
  · simp only [EpicsServiceManager.announce, EpicsServiceManager.withMon,
      Std.ExtTreeMap.getElem?_modify, Std.LawfulEqCmp.compare_eq_iff_eq] at hch
    split at hch
    · rename_i hc
      obtain ⟨old, -, rfl⟩ := Option.map_eq_some_iff.mp hch
      exact hannounced hc
    · exact hcovers.announced ch hch
  · rw [hvalues]
    exact hcovers.within.trans (List.prefix_append _ _)

/-- A run of threads that cover the values goes on to do so. -/
theorem Covers.run {goes : ℕ → Prop} (hσ : σ.Steady platform.worker c t goes)
    (hcovers : σ.Covers platform.worker c t early)
    (hgoes : ∀ i failure, .task i failure ∈ sched → goes i)
    (hannounced : ∀ mon, .arrive c mon ∈ sched → mon.queue ≠ [] → mon.pending = some .data)
    (hrun : Receives platform c σ sched updates τ) : τ.Covers platform.worker c t early := by
  induction hrun with
  | nil σ => exact hcovers
  | task hstep hrest ih =>
    have hi := hgoes _ _ List.mem_cons_self
    exact ih (hσ.task hi hstep).1 (hcovers.task hσ hi hstep)
      (fun i failure hmem ↦ hgoes i failure (List.mem_cons_of_mem _ hmem))
      fun mon hmem ↦ hannounced mon (List.mem_cons_of_mem _ hmem)
  | scheduler halive hstep hrest ih =>
    exact ih (hσ.scheduler halive hstep).1
      (Covers.scheduler hσ hcovers.announced hcovers.within (Or.inr hcovers) halive hstep)
      (fun i failure hmem ↦ hgoes i failure (List.mem_cons_of_mem _ hmem))
      fun mon hmem ↦ hannounced mon (List.mem_cons_of_mem _ hmem)
  | arrive hmon hstep hrest ih =>
    exact ih (hσ.arrive (fun _ ↦ hmon) (fun hne ↦ absurd rfl hne) hstep).1
      (hcovers.arrive hσ (fun _ ↦ hmon) (fun hne ↦ absurd rfl hne)
        (fun _ ↦ hannounced _ List.mem_cons_self) hstep)
      (fun i failure hmem ↦ hgoes i failure (List.mem_cons_of_mem _ hmem))
      fun mon hmem ↦ hannounced mon (List.mem_cons_of_mem _ hmem)
  | other hne hstep hrest ih =>
    exact ih (hσ.arrive (fun heq ↦ absurd heq hne) (fun _ ↦ rfl) hstep).1
      (hcovers.arrive hσ (fun heq ↦ absurd heq hne) (fun _ ↦ rfl)
        (fun heq ↦ absurd heq hne) hstep)
      (fun i failure hmem ↦ hgoes i failure (List.mem_cons_of_mem _ hmem))
      fun mon hmem ↦ hannounced mon (List.mem_cons_of_mem _ hmem)

/-- **An update that has arrived before a scan begins is published by the end of the scan**, if the
client library announces what it has: every value that there is for the topic when the scheduler
starts is with the publisher when it sleeps again. -/
theorem published_of_scan {goes : ℕ → Prop} (hσ : σ.Steady platform.worker c t goes)
    (hsleeping : σ.scan = .sleeping) (hannounced : Announced c σ.shared)
    (hgoes : ∀ i failure, .task i failure ∈ sched → goes i)
    (hpending : ∀ mon, .arrive c mon ∈ sched → mon.queue ≠ [] → mon.pending = some .data)
    (hrun : Receives platform c σ (.scheduler alive :: sched) updates τ)
    (hend : τ.scan = .sleeping) :
    values platform.worker c t σ <+: τ.shared.log.filterMap (ThreadEvent.valueFor? c t) := by
  cases hrun with
  | scheduler halive hstep hrest =>
    have hcovers := (Covers.scheduler hσ hannounced List.prefix_rfl (Or.inl hsleeping) halive
      hstep).run (hσ.scheduler halive hstep).1 hgoes hpending hrest
    have hcarried := hcovers.covered
    rw [carried, hend] at hcarried
    simpa [ScanPoint.rest, ScanPoint.drained] using hcarried

/-- An update. -/
def rampUpdate (value : String) : PVStructure := ⟨[("value", ⟨value⟩)], by simp⟩

/-- The third update comes too late for the scan, and the first two are published by its end. -/
theorem published_of_scan_ramp :
    ∃ σ τ, run (step ⟨fun _ ↦ true, fun vec _ ↦ vec, true, fun _ ↦ 0, 0⟩)
        (start rampManager [⟨"pva", "channel:ramp:ramp", true, "topic_a"⟩])
        (List.replicate 6 (.task 0 none)) = some σ ∧
      Receives ⟨fun _ ↦ true, fun vec _ ↦ vec, true, fun _ ↦ 0, 0⟩ "channel:ramp:ramp" σ
        [.scheduler fun _ ↦ true, .scheduler fun _ ↦ true,
          .arrive "channel:ramp:ramp" { pending := some .data, queue := [rampUpdate "3"] },
          .scheduler fun _ ↦ true, .scheduler fun _ ↦ true, .scheduler fun _ ↦ true,
          .scheduler fun _ ↦ true]
        [rampUpdate "3"] τ ∧
      ["1", "2"] <+:
        τ.shared.log.filterMap (ThreadEvent.valueFor? "channel:ramp:ramp" "topic_a") := by
  obtain ⟨σ, h, hsteady, hsleeping, hannounced, hvalues, τ, hrun, hend⟩ : ∃ σ,
      run (step ⟨fun _ ↦ true, fun vec _ ↦ vec, true, fun _ ↦ 0, 0⟩)
        (start rampManager [⟨"pva", "channel:ramp:ramp", true, "topic_a"⟩])
        (List.replicate 6 (.task 0 none)) = some σ ∧
      σ.Steady 0 "channel:ramp:ramp" "topic_a" (fun _ ↦ False) ∧ σ.scan = .sleeping ∧
      Announced "channel:ramp:ramp" σ.shared ∧
      values 0 "channel:ramp:ramp" "topic_a" σ = ["1", "2"] ∧
      ∃ τ, Receives ⟨fun _ ↦ true, fun vec _ ↦ vec, true, fun _ ↦ 0, 0⟩ "channel:ramp:ramp" σ
        [.scheduler fun _ ↦ true, .scheduler fun _ ↦ true,
          .arrive "channel:ramp:ramp" { pending := some .data, queue := [rampUpdate "3"] },
          .scheduler fun _ ↦ true, .scheduler fun _ ↦ true, .scheduler fun _ ↦ true,
          .scheduler fun _ ↦ true]
        [rampUpdate "3"] τ ∧ τ.scan = .sleeping := by
    refine ⟨_, rfl, ⟨by decide, by decide, by decide, trivial, nofun⟩, rfl, ?_, by decide, _,
      .scheduler rfl rfl <| .scheduler rfl rfl <|
        .arrive (show _ = _ ++ [rampUpdate "3"] by decide) rfl <| .scheduler rfl rfl <|
        .scheduler rfl rfl <| .scheduler rfl rfl <| .scheduler rfl rfl <| .nil _, rfl⟩
    rintro ch hch -
    cases hch
    rfl
  refine ⟨σ, τ, h, hrun, hvalues ▸ published_of_scan hsteady hsleeping hannounced ?_ ?_ hrun hend⟩
  · simp
  · simp

end Threads

end Ekg
