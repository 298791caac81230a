import Std.Data.ExtTreeMap
import Ekg.Common.Broadcaster
import Ekg.Epics.Channel

/-!
# The EPICS service manager

`EpicsServiceManager` owns the map of monitored channels.  Every public operation takes
`channel_map_mutex` for its whole body, so an operation is one function on the manager, and what
another thread can see is only what is there between two of them.

`addChannel` builds a channel in three stages, each of which may throw; the stage that fails is an
argument.  In between, the map holds channels that are not started yet, so the body of the `try`
works on the bare map.  `EpicsServiceManager` is the map with what is true of it whenever the mutex
is free: every entry is filed under its own name, is connected and is started.
-/

set_option autoImplicit false

namespace Ekg

/-- `EpicsChannelMap`. -/
abbrev EpicsChannelMap := Std.ExtTreeMap String EpicsChannel

/-- The stages of setting a channel up. -/
inductive SetupStage
  | constructor | connect | startMonitor
  deriving DecidableEq, Repr

/-- A stage that throws: `std` says whether what it throws is a `std::exception`. -/
structure SetupFailure where
  stage : SetupStage
  std : Bool
  deriving DecidableEq, Repr

/-- The text of the exception that leaves `addChannel`: `throw ex` copies the `std::exception` part
only, and anything else is replaced. -/
def SetupFailure.rethrown (f : SetupFailure) : String :=
  if f.std then "std::exception" else "Unknown error during channel registration"

/-- The failure, if it is one of the given stage. -/
def failsAt (failure : Option SetupFailure) (stage : SetupStage) : Option SetupFailure :=
  failure.filter fun f ↦ f.stage = stage

/-- The body of the `try` of `addChannel`. -/
def tryRegister (failure : Option SetupFailure) (serial : ℕ) (channelName protocoll : String)
    (map : EpicsChannelMap) : EpicsChannelMap × Except SetupFailure Unit :=
  match failsAt failure .constructor with
  | some f => (map, .error f)
  | none =>
    let map := map.insert channelName { serial, provider := protocoll, channelName }
    match failsAt failure .connect with
    | some f => (map, .error f)
    | none =>
      let map := map.modify channelName EpicsChannel.connect
      match failsAt failure .startMonitor with
      | some f => (map, .error f)
      | none => (map.modify channelName EpicsChannel.startMonitor, .ok ())

/-- What is true of the channel map whenever `channel_map_mutex` is free. -/
structure ChannelMapInv (map : EpicsChannelMap) : Prop where
  /-- A channel is filed under its own name. -/
  named : ∀ (name : String) (ch : EpicsChannel), map[name]? = some ch → ch.channelName = name
  /-- A channel has been connected and started. -/
  started : ∀ (name : String) (ch : EpicsChannel), map[name]? = some ch →
    ch.connected = true ∧ ch.monitoring = true

/-- `EpicsServiceManager`. -/
structure EpicsServiceManager where
  /-- The monitored channels. -/
  channelMap : EpicsChannelMap := ∅
  /-- How many channel objects were built so far. -/
  allocations : ℕ := 0
  /-- The registered handlers. -/
  handlerBroadcaster : Broadcaster := {}
  /-- Every entry is named and started. -/
  inv : ChannelMapInv channelMap

theorem channelMapInv_empty : ChannelMapInv ∅ :=
  ⟨by simp, by simp⟩

/-- The manager that `EKGateway::setup` starts with. -/
def EpicsServiceManager.empty : EpicsServiceManager := { inv := channelMapInv_empty }

theorem ChannelMapInv.erase {map : EpicsChannelMap} (h : ChannelMapInv map) (channelName : String) :
    ChannelMapInv (map.erase channelName) := by
  have hsub : ∀ (name : String) (ch : EpicsChannel),
      (map.erase channelName)[name]? = some ch → map[name]? = some ch := by
    intro name ch hch
    rw [Std.ExtTreeMap.getElem?_erase] at hch
    split at hch
    · cases hch
    · exact hch
  exact ⟨fun name ch hch ↦ h.named name ch (hsub name ch hch),
    fun name ch hch ↦ h.started name ch (hsub name ch hch)⟩

/-- The channel that a successful `addChannel` leaves in the map. -/
def startedChannel (serial : ℕ) (channelName protocoll : String) : EpicsChannel :=
  { serial, provider := protocoll, channelName, connected := true, monitoring := true }

theorem ChannelMapInv.insert_started {map : EpicsChannelMap} (h : ChannelMapInv map)
    (serial : ℕ) (channelName protocoll : String) :
    ChannelMapInv (map.insert channelName (startedChannel serial channelName protocoll)) := by
  refine ⟨fun name ch hch ↦ ?_, fun name ch hch ↦ ?_⟩ <;>
    simp only [Std.ExtTreeMap.getElem?_insert, Std.LawfulEqCmp.compare_eq_iff_eq] at hch <;>
    split at hch
  · rename_i hname
    cases hch
    exact hname
  · exact h.named name ch hch
  · cases hch
    exact ⟨rfl, rfl⟩
  · exact h.started name ch hch

section TryRegister

variable {failure : Option SetupFailure} {serial : ℕ} {channelName protocoll : String}
  {map : EpicsChannelMap}

/-- Without a failure, the three stages leave a started channel. -/
theorem tryRegister_none (serial : ℕ) (channelName protocoll : String) (map : EpicsChannelMap) :
    tryRegister none serial channelName protocoll map =
      (map.insert channelName (startedChannel serial channelName protocoll), .ok ()) := by
  refine Prod.ext (Std.ExtTreeMap.ext_getElem? fun name ↦ ?_) rfl
  simp only [tryRegister, failsAt, Option.filter_none, Std.ExtTreeMap.getElem?_modify,
    Std.ExtTreeMap.getElem?_insert, Std.LawfulEqCmp.compare_eq_iff_eq]
  split <;> simp [startedChannel, EpicsChannel.connect, EpicsChannel.startMonitor, *]

/-- A failure is a failure of one of the three stages. -/
theorem tryRegister_some (f : SetupFailure) :
    (tryRegister (some f) serial channelName protocoll map).2 = .error f := by
  obtain ⟨stage, std⟩ := f
  cases stage <;> rfl

/-- Whatever happens, only the entry of the channel is touched. -/
theorem getElem?_tryRegister_ne {name : String} (hne : channelName ≠ name) :
    (tryRegister failure serial channelName protocoll map).1[name]? = map[name]? := by
  simp only [tryRegister]
  split
  · rfl
  · split
    · simp [Std.ExtTreeMap.getElem?_insert, hne]
    · split <;> simp [Std.ExtTreeMap.getElem?_modify, Std.ExtTreeMap.getElem?_insert, hne]

/-- Erasing the entry undoes a registration of an absent channel, however far it got. -/
theorem erase_tryRegister (h : map[channelName]? = none) :
    (tryRegister failure serial channelName protocoll map).1.erase channelName = map := by
  refine Std.ExtTreeMap.ext_getElem? fun name ↦ ?_
  simp only [Std.ExtTreeMap.getElem?_erase, Std.LawfulEqCmp.compare_eq_iff_eq]
  split
  · rename_i hname
    rw [← hname, h]
  · rename_i hname
    exact getElem?_tryRegister_ne hname

end TryRegister

/-! ## The operations -/

namespace EpicsServiceManager

/-- `EpicsServiceManager::addChannel`.  The `catch` erases the entry and throws again. -/
def addChannel (failure : Option SetupFailure) (channelName : String)
    (protocoll : String := "pva") (m : EpicsServiceManager) :
    EpicsServiceManager × Except String Unit :=
  match hfind : m.channelMap[channelName]? with
  | some _ => (m, .ok ())
  | none =>
    match hreg : tryRegister failure m.allocations channelName protocoll m.channelMap with
    | (map, .ok ()) =>
      ({ m with
          channelMap := map
          allocations := m.allocations + 1
          inv := by
            cases failure with
            | none =>
              rw [tryRegister_none, Prod.mk.injEq] at hreg
              exact hreg.1 ▸ m.inv.insert_started _ _ _
            | some f =>
              have h := congrArg Prod.snd hreg
              rw [tryRegister_some] at h
              cases h }, .ok ())
    | (map, .error f) =>
      ({ m with
          channelMap := map.erase channelName
          allocations := m.allocations + 1
          inv := by
            have h := congrArg (fun r ↦ r.1.erase channelName) hreg
            rw [erase_tryRegister hfind] at h
            exact h ▸ m.inv }, .error f.rethrown)

/-- `EpicsServiceManager::removeChannel`. -/
def removeChannel (channelName : String) (m : EpicsServiceManager) : EpicsServiceManager :=
  { m with channelMap := m.channelMap.erase channelName, inv := m.inv.erase channelName }

/-- `EpicsServiceManager::monitorChannel`: the protocol is left to its default. -/
def monitorChannel (failure : Option SetupFailure) (channelName : String) (activate : Bool)
    (m : EpicsServiceManager) : EpicsServiceManager × Except String Unit :=
  if activate then addChannel failure channelName (m := m)
  else (removeChannel channelName m, .ok ())

/-- `EpicsServiceManager::addHandler`: the token is the number of the registration. -/
def addHandler (m : EpicsServiceManager) : EpicsServiceManager × ℕ :=
  let b := m.handlerBroadcaster.registerHandler
  ({ m with handlerBroadcaster := b.1 }, b.2)

/-- `EpicsServiceManager::getHandlerSize`, where `alive` tells the targets that have not expired. -/
def getHandlerSize (alive : ℕ → Bool) (m : EpicsServiceManager) : EpicsServiceManager × ℕ :=
  let b := m.handlerBroadcaster.purge alive
  ({ m with handlerBroadcaster := b }, b.targets.length)

variable {m : EpicsServiceManager} {channelName name protocoll : String}

/-- What a successful `addChannel` does to the map. -/
theorem channelMap_addChannel (m : EpicsServiceManager) (channelName protocoll : String) :
    (addChannel none channelName protocoll m).1.channelMap =
      if channelName ∈ m.channelMap then m.channelMap
      else
        m.channelMap.insert channelName (startedChannel m.allocations channelName protocoll) := by
  rw [addChannel]
  split
  · rename_i ch hch
    rw [if_pos (Std.ExtTreeMap.mem_iff_isSome_getElem?.mpr (by rw [hch]; rfl))]
  · rename_i hnone
    rw [if_neg (by rw [Std.ExtTreeMap.mem_iff_isSome_getElem?, hnone]; simp)]
    split <;> rename_i hreg <;> rw [tryRegister_none, Prod.mk.injEq] at hreg
    · exact hreg.1.symm
    · cases hreg.2

/-- An `addChannel` that throws leaves the map as it was. -/
theorem channelMap_addChannel_of_error {failure : Option SetupFailure} {what : String}
    (h : (addChannel failure channelName protocoll m).2 = .error what) :
    (addChannel failure channelName protocoll m).1.channelMap = m.channelMap := by
  rw [addChannel] at h ⊢
  split at h
  · cases h
  · rename_i hfind
    split at h
    · cases h
    · rename_i map f hreg
      have := congrArg (fun r ↦ r.1.erase channelName) hreg
      rw [erase_tryRegister hfind] at this
      exact this.symm

/-- A stage that throws leaves the map as it was, or is not reached. -/
theorem channelMap_addChannel_some (f : SetupFailure) (channelName protocoll : String)
    (m : EpicsServiceManager) :
    (addChannel (some f) channelName protocoll m).1.channelMap = m.channelMap := by
  rw [addChannel]
  split
  · rfl
  · rename_i hfind
    split
    · rename_i hreg
      have hsnd := congrArg Prod.snd hreg
      rw [tryRegister_some] at hsnd
      cases hsnd
    · rename_i hreg
      have herase := congrArg (fun r ↦ r.1.erase channelName) hreg
      rw [erase_tryRegister hfind] at herase
      exact herase.symm

/-- A channel that is monitored already stays what it is when it is asked for again. -/
theorem addChannel_of_mem {failure : Option SetupFailure} (h : channelName ∈ m.channelMap) :
    addChannel failure channelName protocoll m = (m, .ok ()) := by
  rw [addChannel]
  split
  · rfl
  · rename_i hfind
    rw [Std.ExtTreeMap.mem_iff_isSome_getElem?, hfind] at h
    cases h

/-- A stage that throws is not reached if `addChannel` does not throw. -/
theorem mem_of_addChannel_some {f : SetupFailure}
    (h : (addChannel (some f) channelName protocoll m).2 = .ok ()) :
    channelName ∈ m.channelMap := by
  rw [addChannel] at h
  split at h
  · rename_i hfind
    rw [Std.ExtTreeMap.mem_iff_isSome_getElem?, hfind]
    rfl
  · split at h
    · rename_i hreg
      have hsnd := congrArg Prod.snd hreg
      rw [tryRegister_some] at hsnd
      cases hsnd
    · cases h

/-- `addChannel` touches one channel only. -/
theorem mem_addChannel_of_ne {failure : Option SetupFailure} (hne : channelName ≠ name) :
    name ∈ (addChannel failure channelName protocoll m).1.channelMap ↔ name ∈ m.channelMap := by
  cases failure with
  | none =>
    rw [channelMap_addChannel]
    split
    · rfl
    · simp [hne]
  | some f => rw [channelMap_addChannel_some]

/-- What `monitorChannel` does to the map when `addChannel` does not fail. -/
theorem getElem?_monitorChannel (m : EpicsServiceManager) (channelName : String) (activate : Bool)
    (name : String) :
    (monitorChannel none channelName activate m).1.channelMap[name]? =
      if channelName = name then
        if activate then
          m.channelMap[name]?.or (some (startedChannel m.allocations channelName "pva"))
        else none
      else m.channelMap[name]? := by
  cases activate with
  | false => simp [monitorChannel, removeChannel, Std.ExtTreeMap.getElem?_erase]
  | true =>
    simp only [monitorChannel, if_true, channelMap_addChannel]
    by_cases hname : channelName = name
    · subst hname
      by_cases hmem : channelName ∈ m.channelMap <;> simp [hmem]
    · by_cases hmem : channelName ∈ m.channelMap <;>
        simp [hmem, hname, Std.ExtTreeMap.getElem?_insert]

/-- After `monitorChannel`, the channel is monitored as asked, and every other as before. -/
theorem mem_monitorChannel (m : EpicsServiceManager) (channelName : String) (activate : Bool)
    (name : String) :
    name ∈ (monitorChannel none channelName activate m).1.channelMap ↔
      if channelName = name then activate = true else name ∈ m.channelMap := by
  simp only [Std.ExtTreeMap.mem_iff_isSome_getElem?, getElem?_monitorChannel]
  split
  · cases activate <;> simp
  · rfl

end EpicsServiceManager

end Ekg
