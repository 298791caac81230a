import Ekg.Epics.Scan
import Ekg.Node.AcquireWorker
import Ekg.Pubsub.IPublisher

/-!
# From EPICS events to messages

`epicsMonitorEvent` is the handler that the worker registers with the service manager.  It turns
each `Data` event into one message for every topic of the channel, and pushes them without looking
at the answers.

The main result follows an update through the whole of a scan (`scan_publishes`): out of the map of
channels, through the drain of its queue, the broadcast and the topics of its channel, to the
publisher.  `scanMessages` is the specification, as nested lists; that nothing is lost, repeated or
reordered on the way is the equation with it.

A scan drains the queue of a channel only if the event that `wait` reports is a `Data` event.  What
is queued behind an event of another type, or without any event, is not published by this scan: it
stays where it is.  So the messages of a scan are not those of everything queued
(`scan_stranded`).
-/

set_option autoImplicit false

namespace Ekg

universe u

variable {π : Type u}

/-- The constructor of `MonitorMessage`. -/
def monitorMessage (distributionKey queue message : String) : PublishMessage where
  reqType := "monitoring"
  distributionKey := distributionKey
  queue := queue
  buffer := message

/-- What `epicsMonitorEvent` works on: the topic map, and the publisher. -/
structure PublishState (π : Type u) where
  /-- `channel_topics_map`. -/
  channelTopicsMap : ChannelTopicsMap
  /-- `publisher`. -/
  publisher : π

/-- The body of the loop of `epicsMonitorEvent`. -/
def handleEvent (publisher : IPublisher π) (s : PublishState π) (e : MonitorEvent) :
    PublishState π :=
  if h : e.type = .data then
    let svalue := (e.data.get (e.hasData h)).renderValue
    let channelTopicsMap := s.channelTopicsMap.lookup e.channelName
    { channelTopicsMap
      publisher := (channelTopicsMap.topics e.channelName).foldl
        (fun p topic ↦
          (publisher.pushMessage (monitorMessage e.channelName topic svalue) p).1) s.publisher }
  else s

/-- `AcquireCommandWorker::epicsMonitorEvent`. -/
def epicsMonitorEvent (publisher : IPublisher π) (eventData : List MonitorEvent)
    (s : PublishState π) : PublishState π :=
  eventData.foldl (handleEvent publisher) s

/-! ## The messages of a scan -/

/-- The messages of an update: one for each topic of the channel, in the order of the list. -/
def updateMessages (topics : String → List String) (channelName : String) (root : PVStructure) :
    List PublishMessage :=
  (topics channelName).map fun topic ↦
    { reqType := "monitoring", distributionKey := channelName, queue := topic,
      buffer := root.renderValue }

/-- The messages of everything that is queued: channel by channel in the order of the map, update by
update in the order of the queue. -/
def queuedMessages (topics : String → List String) (channelMap : EpicsChannelMap) :
    List PublishMessage :=
  channelMap.toList.flatMap fun entry ↦ entry.2.mon.queue.flatMap (updateMessages topics entry.1)

/-- The messages of a scan: those of the updates that are queued on a channel with a `Data` event to
report. -/
def scanMessages (topics : String → List String) (channelMap : EpicsChannelMap) :
    List PublishMessage :=
  (channelMap.toList.filter fun entry ↦ entry.2.mon.pending = some .data).flatMap fun entry ↦
    entry.2.mon.queue.flatMap (updateMessages topics entry.1)

/-- The messages of an event: none, unless it is a `Data` event. -/
def eventMessages (topics : String → List String) (e : MonitorEvent) : List PublishMessage :=
  if h : e.type = .data then updateMessages topics e.channelName (e.data.get (e.hasData h)) else []

theorem eventMessages_of_ne {e : MonitorEvent} (topics : String → List String)
    (h : e.type ≠ .data) : eventMessages topics e = [] :=
  dif_neg h

/-- The messages of the events of one `monitor` call. -/
theorem flatMap_monitor (topics : String → List String) (ch : EpicsChannel) :
    ch.monitor.1.flatMap (eventMessages topics) =
      if ch.mon.pending = some .data then
        ch.mon.queue.flatMap (updateMessages topics ch.channelName)
      else [] := by
  split
  · rename_i hdata
    rw [EpicsChannel.monitor_of_data hdata, List.flatMap_map]
    rfl
  · rename_i hne
    rw [List.flatMap_eq_nil_iff]
    exact fun e he ↦ eventMessages_of_ne topics (EpicsChannel.monitor_of_ne hne e he)

/-! ## The handler -/

variable (publisher : IPublisher π)

/-- An event pushes its messages.  The lookup may add an entry, which has no topics. -/
theorem handleEvent_spec (s : PublishState π) (e : MonitorEvent) :
    (handleEvent publisher s e).publisher =
        publisher.pushAll (eventMessages s.channelTopicsMap.topics e) s.publisher ∧
      (handleEvent publisher s e).channelTopicsMap.topics = s.channelTopicsMap.topics := by
  by_cases h : e.type = .data
  · simp only [handleEvent, eventMessages, dif_pos h, updateMessages, IPublisher.pushAll,
      List.foldl_map, ChannelTopicsMap.topics_lookup]
    exact ⟨rfl, funext fun c ↦ ChannelTopicsMap.topics_lookup _ _⟩
  · simp only [handleEvent, eventMessages, dif_neg h, IPublisher.pushAll_nil, and_self]

/-- **What the handler does with some events**: it pushes their messages, and the topics stay. -/
theorem epicsMonitorEvent_spec (eventData : List MonitorEvent) (s : PublishState π) :
    (epicsMonitorEvent publisher eventData s).publisher =
        publisher.pushAll (eventData.flatMap (eventMessages s.channelTopicsMap.topics))
          s.publisher ∧
      (epicsMonitorEvent publisher eventData s).channelTopicsMap.topics =
        s.channelTopicsMap.topics := by
  induction eventData generalizing s with
  | nil => exact ⟨rfl, rfl⟩
  | cons e eventData ih =>
    obtain ⟨hpublisher, htopics⟩ := handleEvent_spec publisher s e
    obtain ⟨ihpublisher, ihtopics⟩ := ih (handleEvent publisher s e)
    refine ⟨ihpublisher.trans ?_, ihtopics.trans htopics⟩
    rw [htopics, hpublisher, List.flatMap_cons, IPublisher.pushAll_append]

/-- The handler, called once for each channel of a list. -/
theorem foldl_epicsMonitorEvent (entries : List (String × EpicsChannel)) (s : PublishState π) :
    (entries.foldl (fun s entry ↦
        if entry.2.monitor.1 = [] then s else epicsMonitorEvent publisher entry.2.monitor.1 s)
        s).publisher =
      publisher.pushAll
        ((entries.filter fun entry ↦ entry.2.mon.pending = some .data).flatMap fun entry ↦
          entry.2.mon.queue.flatMap
            (updateMessages s.channelTopicsMap.topics entry.2.channelName)) s.publisher ∧
    (entries.foldl (fun s entry ↦
        if entry.2.monitor.1 = [] then s else epicsMonitorEvent publisher entry.2.monitor.1 s)
        s).channelTopicsMap.topics = s.channelTopicsMap.topics := by
  induction entries generalizing s with
  | nil => exact ⟨rfl, rfl⟩
  | cons entry entries ih =>
    have hif : (if entry.2.monitor.1 = [] then s
        else epicsMonitorEvent publisher entry.2.monitor.1 s) =
        epicsMonitorEvent publisher entry.2.monitor.1 s := by
      split
      · rename_i hnil
        rw [hnil]
        rfl
      · rfl
    obtain ⟨hpublisher, htopics⟩ := epicsMonitorEvent_spec publisher entry.2.monitor.1 s
    obtain ⟨ihpublisher, ihtopics⟩ := ih (epicsMonitorEvent publisher entry.2.monitor.1 s)
    rw [List.foldl_cons, hif]
    refine ⟨ihpublisher.trans ?_, ihtopics.trans htopics⟩
    rw [htopics, hpublisher, flatMap_monitor, List.filter_cons]
    by_cases hdata : entry.2.mon.pending = some .data
    · simp only [hdata, decide_true, if_true, List.flatMap_cons, IPublisher.pushAll_append]
    · simp only [hdata, decide_false, Bool.false_eq_true, if_false, IPublisher.pushAll_nil]

/-- **A scan publishes every announced update once for every topic of its channel, in order**,
whatever the publisher answers, and leaves the topics of every channel as they are.  Announced is
what is queued on a channel with a `Data` event to report; what is queued elsewhere stays queued. -/
theorem scan_publishes (m : EpicsServiceManager) (s : PublishState π) {alive : ℕ → Bool}
    {handler : ℕ → List MonitorEvent → PublishState π → PublishState π} {worker : ℕ}
    (hlive : m.handlerBroadcaster.targets.filter alive = [worker])
    (hworker : handler worker = epicsMonitorEvent publisher) :
    (EpicsServiceManager.scan (fun _ ↦ alive) handler m s).2.publisher =
        publisher.pushAll (scanMessages s.channelTopicsMap.topics m.channelMap) s.publisher ∧
      (EpicsServiceManager.scan (fun _ ↦ alive) handler m s).2.channelTopicsMap.topics =
        s.channelTopicsMap.topics ∧
      ∀ c : String,
        ((EpicsServiceManager.scan (fun _ ↦ alive) handler m s).1.channelMap[c]?).map
            (fun ch ↦ ch.mon.queue) =
          (m.channelMap[c]?).map fun ch ↦
            if ch.mon.pending = some .data then [] else ch.mon.queue := by
  have hmessages : scanMessages s.channelTopicsMap.topics m.channelMap =
      (m.channelMap.toList.filter fun entry ↦ entry.2.mon.pending = some .data).flatMap
        fun entry ↦ entry.2.mon.queue.flatMap
          (updateMessages s.channelTopicsMap.topics entry.2.channelName) := by
    -- the key that a channel is filed under is the name that its events carry
    refine List.flatMap_congr fun entry hentry ↦ ?_
    have hmem : entry ∈ m.channelMap.toList := List.mem_of_mem_filter hentry
    rw [m.inv.named entry.1 entry.2 (Std.ExtTreeMap.mem_toList_iff_getElem?_eq_some.mp hmem)]
  obtain ⟨hpublisher, htopics⟩ := foldl_epicsMonitorEvent publisher m.channelMap.toList s
  rw [EpicsServiceManager.scan_snd hlive, hworker, hmessages]
  refine ⟨hpublisher, htopics, fun c ↦ ?_⟩
  rw [EpicsServiceManager.getElem?_scan, Option.map_map]
  exact congrArg (fun f ↦ Option.map f m.channelMap[c]?) (funext EpicsChannel.queue_monitor)

/-- A manager with the handler of a worker, and one channel with two updates to report. -/
def rampManager : EpicsServiceManager :=
  ((EpicsServiceManager.empty.addHandler.1.addChannel none "channel:ramp:ramp").1).announce
    "channel:ramp:ramp"
    { pending := some .data
      queue := [⟨[("value", ⟨"1"⟩)], by decide⟩, ⟨[("value", ⟨"2"⟩)], by decide⟩] }

/-- Two updates for two topics, on a publisher that refuses everything. -/
theorem scan_publishes_refused :
    (EpicsServiceManager.scan (fun _ wp ↦ wp == 0)
        (fun _ ↦ epicsMonitorEvent (.recorder fun _ ↦ -1)) rampManager
        ⟨(∅ : ChannelTopicsMap).insert "channel:ramp:ramp" ["topic_a", "topic_b"],
          []⟩).2.publisher =
      [⟨"monitoring", "channel:ramp:ramp", "topic_a", "1"⟩,
        ⟨"monitoring", "channel:ramp:ramp", "topic_b", "1"⟩,
        ⟨"monitoring", "channel:ramp:ramp", "topic_a", "2"⟩,
        ⟨"monitoring", "channel:ramp:ramp", "topic_b", "2"⟩] := by
  have hlive : rampManager.handlerBroadcaster.targets.filter (fun wp ↦ wp == 0) = [0] := by
    decide
  refine (scan_publishes (.recorder fun _ ↦ -1) rampManager _ hlive rfl).1.trans ?_
  rw [IPublisher.pushAll_recorder]
  decide

/-- The channel is disconnected with an update in its queue.  The update has a subscriber, but the
scan pushes nothing, and leaves it where it is. -/
theorem scan_stranded :
    let update : PVStructure := ⟨[("value", ⟨"1"⟩)], by decide⟩
    let m := rampManager.announce "channel:ramp:ramp"
      { pending := some .disconnect, queue := [update] }
    let s : PublishState (List PublishMessage) :=
      ⟨(∅ : ChannelTopicsMap).insert "channel:ramp:ramp" ["topic_a"], []⟩
    let after := EpicsServiceManager.scan (fun _ wp ↦ wp == 0)
      (fun _ ↦ epicsMonitorEvent (.recorder fun _ ↦ 0)) m s
    m.handlerBroadcaster.targets.filter (fun wp ↦ wp == 0) = [0] ∧
      queuedMessages s.channelTopicsMap.topics m.channelMap =
        [⟨"monitoring", "channel:ramp:ramp", "topic_a", "1"⟩] ∧
      after.2.publisher = [] ∧
      (after.1.channelMap["channel:ramp:ramp"]?).map (fun ch ↦ ch.mon.queue) = some [update] := by
  decide

end Ekg
