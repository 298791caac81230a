import Mathlib.Data.List.Basic

/-!
# EPICS channels

An `EpicsChannel` is one subscription to a process variable.  What comes from the pvac client
library is modelled by what the gateway can see of it: a monitor has at most one event to report,
`wait` reports it, and `poll` hands out the queued updates in order until there are none.

The gateway copies an update whole and later prints its `value` field, so an update is a list of
named fields, and a field is the text that `operator<<` prints for it.
-/

set_option autoImplicit false

namespace Ekg

/-- A `PVField`, by the text it prints as. -/
structure PVField where
  printed : String
  deriving DecidableEq, Repr

/-- A `PVStructure`: the fields of one update, among which is `value`. -/
structure PVStructure where
  /-- The fields. -/
  subFields : List (String × PVField)
  /-- Every update has a `value` field. -/
  hasValue : (subFields.lookup "value").isSome
  deriving DecidableEq

/-- `PVStructure::getSubField`. -/
def PVStructure.getSubField (pv : PVStructure) (name : String) : Option PVField :=
  pv.subFields.lookup name

/-- The text of the `value` field. -/
def PVStructure.renderValue (pv : PVStructure) : String :=
  ((pv.getSubField "value").get pv.hasValue).printed

/-- `pvac::MonitorEvent::event_t`. -/
inductive PvacEvent
  | fail | cancel | disconnect | data
  deriving DecidableEq, Repr

/-- A `pvac::MonitorSync`: the event that `wait` will report, and the queued updates. -/
structure MonitorSync where
  /-- The event that is pending, if there is one. -/
  pending : Option PvacEvent := none
  /-- The message that comes with the event. -/
  message : String := ""
  /-- The updates that `poll` will hand out, in order. -/
  queue : List PVStructure := []
  deriving DecidableEq

/-- `MonitorType`. -/
inductive MonitorType
  | fail | cancel | disconnec | data
  deriving DecidableEq, Repr

/-- `MonitorEvent`: what a channel hands to the handlers. -/
structure MonitorEvent where
  type : MonitorType
  channelName : String
  message : String
  data : Option PVStructure
  /-- The pointer of a `Data` event is not null. -/
  hasData : type = .data → data.isSome
  deriving DecidableEq

/-- The event of an update. -/
def MonitorEvent.ofUpdate (channelName message : String) (root : PVStructure) : MonitorEvent where
  type := .data
  channelName := channelName
  message := message
  data := some root
  hasData _ := rfl

/-- `EpicsChannel`. -/
structure EpicsChannel where
  /-- Which `make_shared` call built the object. -/
  serial : ℕ
  /-- The provider the client was built with: the protocol. -/
  provider : String
  channelName : String
  address : String := ""
  /-- `connect` has returned. -/
  connected : Bool := false
  /-- `startMonitor` has returned. -/
  monitoring : Bool := false
  /-- The subscription. -/
  mon : MonitorSync := {}
  deriving DecidableEq

namespace EpicsChannel

/-- `EpicsChannel::connect`. -/
def connect (ch : EpicsChannel) : EpicsChannel := { ch with connected := true }

/-- `EpicsChannel::startMonitor`: a new subscription. -/
def startMonitor (ch : EpicsChannel) : EpicsChannel := { ch with monitoring := true, mon := {} }

/-- The loop `while (mon.poll())`: one `Data` event for each queued update. -/
def drain (channelName message : String) : List PVStructure → List MonitorEvent
  | [] => []
  | root :: queue => .ofUpdate channelName message root :: drain channelName message queue

/-- `EpicsChannel::monitor`: what `wait` reports, with the queue drained if it is a `Data` event. -/
def monitor (ch : EpicsChannel) : List MonitorEvent × EpicsChannel :=
  let event (type : MonitorType) (h : type ≠ .data) : MonitorEvent :=
    { type, channelName := ch.channelName, message := ch.mon.message, data := none,
      hasData := fun hdata ↦ absurd hdata h }
  let waited := { ch with mon := { ch.mon with pending := none } }
  match ch.mon.pending with
  | none => ([], ch)
  | some .fail => ([event .fail nofun], waited)
  | some .cancel => ([event .cancel nofun], waited)
  | some .disconnect => ([event .disconnec nofun], waited)
  | some .data =>
    (drain ch.channelName ch.mon.message ch.mon.queue,
      { ch with mon := { ch.mon with pending := none, queue := [] } })

theorem drain_eq_map (channelName message : String) (queue : List PVStructure) :
    drain channelName message queue = queue.map (.ofUpdate channelName message) := by
  induction queue with
  | nil => rfl
  | cons root queue ih => rw [drain, ih, List.map_cons]

/-- One call changes nothing of the channel but its subscription. -/
theorem monitor_snd (ch : EpicsChannel) : ch.monitor.2 = { ch with mon := ch.monitor.2.mon } := by
  rw [monitor]
  cases ch.mon.pending with
  | none => rfl
  | some e => cases e <;> rfl

/-- If a `Data` event is pending, the events of one call are those of the queued updates, in
order. -/
theorem monitor_of_data {ch : EpicsChannel} (h : ch.mon.pending = some .data) :
    ch.monitor.1 = ch.mon.queue.map (.ofUpdate ch.channelName ch.mon.message) := by
  rw [monitor, h]
  exact drain_eq_map _ _ _

/-- If no `Data` event is pending, no event of one call carries data. -/
theorem monitor_of_ne {ch : EpicsChannel} (h : ch.mon.pending ≠ some .data) :
    ∀ e ∈ ch.monitor.1, e.type ≠ .data := by
  rw [monitor]
  cases hpending : ch.mon.pending with
  | none => simp
  | some e =>
    cases e with
    | data => exact absurd hpending h
    | _ => simp

/-- One call drains the queue if a `Data` event is pending, and does not touch it otherwise. -/
theorem queue_monitor (ch : EpicsChannel) :
    ch.monitor.2.mon.queue = if ch.mon.pending = some .data then [] else ch.mon.queue := by
  rw [monitor]
  cases ch.mon.pending with
  | none => rfl
  | some e => cases e <;> rfl

/-- The events of one call carry the name of the channel. -/
theorem channelName_of_mem_monitor {ch : EpicsChannel} {e : MonitorEvent} (h : e ∈ ch.monitor.1) :
    e.channelName = ch.channelName := by
  rw [monitor] at h
  split at h
  case h_5 =>
    rw [drain_eq_map] at h
    obtain ⟨root, -, rfl⟩ := List.mem_map.mp h
    rfl
  case h_1 => cases h
  all_goals
    rw [List.mem_singleton.mp h]

end EpicsChannel

end Ekg
