import Ekg.Epics.ServiceManager

/-!
# The scan of the channels

`EpicsServiceManager::task` goes over the channel map, again and again, under the mutex of the map.
For each channel it takes what there is to report and broadcasts it to the handlers, if there is
anything and anyone.

What the handlers do is theirs: they act on a state `σ` of their own.  A scan has two effects that
can be told apart, and the two main lemmas state one each: on the channels, whose announced updates
are taken (`getElem?_scan`), and on the state of the handlers (`scan_snd`).
-/

set_option autoImplicit false

namespace Ekg

universe u

variable {σ : Type u}

namespace EpicsServiceManager

/-- The manager after the subscription of the channel `name`, if there is one, has changed. -/
def withMon (name : String) (f : EpicsChannel → MonitorSync) (m : EpicsServiceManager) :
    EpicsServiceManager :=
  { m with
    channelMap := m.channelMap.modify name fun ch ↦ { ch with mon := f ch }
    inv := by
      have hmod : ∀ (key : String) (ch : EpicsChannel),
          (m.channelMap.modify name fun ch ↦ { ch with mon := f ch })[key]? = some ch →
            ∃ old, m.channelMap[key]? = some old ∧ ch = { old with mon := ch.mon } := by
        intro key ch hch
        simp only [Std.ExtTreeMap.getElem?_modify, Std.LawfulEqCmp.compare_eq_iff_eq] at hch
        split at hch
        · rename_i hname
          obtain ⟨old, hold, rfl⟩ := Option.map_eq_some_iff.mp hch
          exact ⟨old, hname ▸ hold, rfl⟩
        · exact ⟨ch, hch, rfl⟩
      constructor
      · intro key ch hch
        obtain ⟨old, hold, heq⟩ := hmod key ch hch
        rw [heq]
        exact m.inv.named key old hold
      · intro key ch hch
        obtain ⟨old, hold, heq⟩ := hmod key ch hch
        rw [heq]
        exact m.inv.started key old hold }

/-- The client library has something to report on a channel. -/
def announce (name : String) (mon : MonitorSync) (m : EpicsServiceManager) :
    EpicsServiceManager :=
  m.withMon name fun _ ↦ mon

@[simp] theorem mem_withMon (name : String) (f : EpicsChannel → MonitorSync)
    (m : EpicsServiceManager) (key : String) :
    key ∈ (m.withMon name f).channelMap ↔ key ∈ m.channelMap :=
  Std.ExtTreeMap.mem_modify

/-- The manager after `monitor` was called on the channel object in the entry `name`. -/
def monitored (name : String) (m : EpicsServiceManager) : EpicsServiceManager :=
  m.withMon name fun ch ↦ ch.monitor.2.mon

/-- `EpicsServiceManager::processIterator`, on the entry `name` with the channel `ch`. -/
def processIterator (alive : σ → ℕ → Bool) (handler : ℕ → List MonitorEvent → σ → σ)
    (name : String) (ch : EpicsChannel) (r : EpicsServiceManager × σ) : EpicsServiceManager × σ :=
  let receivedEvent := ch.monitor.1
  let m := r.1.monitored name
  if receivedEvent.length = 0 ∨ m.handlerBroadcaster.targets.length = 0 then (m, r.2)
  else
    let b := m.handlerBroadcaster.broadcast alive handler receivedEvent r.2
    ({ m with handlerBroadcaster := b.1 }, b.2)

/-- One scan of `EpicsServiceManager::task`. -/
def scan (alive : σ → ℕ → Bool) (handler : ℕ → List MonitorEvent → σ → σ)
    (m : EpicsServiceManager) (s : σ) : EpicsServiceManager × σ :=
  m.channelMap.toList.foldl (fun r entry ↦ processIterator alive handler entry.1 entry.2 r) (m, s)

variable {alive : σ → ℕ → Bool} {handler : ℕ → List MonitorEvent → σ → σ}
  {name : String} {ch : EpicsChannel} {r : EpicsServiceManager × σ}

theorem channelMap_processIterator :
    (processIterator alive handler name ch r).1.channelMap = (r.1.monitored name).channelMap := by
  rw [processIterator]
  split <;> rfl

theorem getElem?_monitored (m : EpicsServiceManager) (key : String) :
    (m.monitored name).channelMap[key]? =
      if name = key then (m.channelMap[key]?).map fun ch ↦ ch.monitor.2
      else m.channelMap[key]? := by
  simp only [monitored, withMon, Std.ExtTreeMap.getElem?_modify,
    Std.LawfulEqCmp.compare_eq_iff_eq, ← EpicsChannel.monitor_snd]
  split <;> simp [*]

/-- The entries of a list with distinct names are each monitored once. -/
theorem getElem?_foldl_processIterator {entries : List (String × EpicsChannel)}
    (hnd : entries.Pairwise fun a b ↦ ¬ a.1 = b.1) (r : EpicsServiceManager × σ) (key : String) :
    (entries.foldl (fun r entry ↦ processIterator alive handler entry.1 entry.2 r)
        r).1.channelMap[key]? =
      if key ∈ entries.map Prod.fst then (r.1.channelMap[key]?).map fun ch ↦ ch.monitor.2
      else r.1.channelMap[key]? := by
  induction entries generalizing r with
  | nil => rfl
  | cons entry entries ih =>
    obtain ⟨hentry, hnd⟩ := List.pairwise_cons.mp hnd
    rw [List.foldl_cons, ih hnd, channelMap_processIterator, getElem?_monitored, List.map_cons]
    by_cases hkey : entry.1 = key
    · have hnot : key ∉ entries.map Prod.fst := by
        rintro hmem
        obtain ⟨e, he, rfl⟩ := List.mem_map.mp hmem
        exact hentry e he hkey
      rw [if_neg hnot, if_pos hkey, if_pos (List.mem_cons.mpr (Or.inl hkey.symm))]
    · simp only [if_neg hkey, List.mem_cons, Ne.symm hkey, false_or]

/-- **What a scan does to the channels**: `monitor` is called once on each. -/
theorem getElem?_scan (m : EpicsServiceManager) (s : σ) (key : String) :
    (scan alive handler m s).1.channelMap[key]? =
      (m.channelMap[key]?).map fun ch ↦ ch.monitor.2 := by
  have hnd : m.channelMap.toList.Pairwise fun a b ↦ ¬ a.1 = b.1 := by
    simpa only [Std.LawfulEqCmp.compare_eq_iff_eq] using m.channelMap.distinct_keys_toList
  rw [scan, getElem?_foldl_processIterator hnd, Std.ExtTreeMap.map_fst_toList_eq_keys]
  split
  · rfl
  · rename_i hkey
    rw [Std.ExtTreeMap.mem_keys] at hkey
    rw [Std.ExtTreeMap.getElem?_eq_none hkey]
    rfl

section SingleHandler

/-! ### One live handler -/

variable {alive : ℕ → Bool} {wp : ℕ}

theorem processIterator_single (handler : ℕ → List MonitorEvent → σ → σ) (name : String)
    (ch : EpicsChannel) (h : r.1.handlerBroadcaster.targets.filter alive = [wp]) :
    (processIterator (fun _ ↦ alive) handler name ch r).2 =
        (if ch.monitor.1 = [] then r.2 else handler wp ch.monitor.1 r.2) ∧
      (processIterator (fun _ ↦ alive) handler name ch r).1.handlerBroadcaster.targets.filter alive
        = [wp] := by
  have htargets : (r.1.monitored name).handlerBroadcaster.targets.length ≠ 0 := by
    intro hlen
    have hnil : r.1.handlerBroadcaster.targets = [] := List.eq_nil_of_length_eq_zero hlen
    rw [hnil] at h
    cases h
  simp only [processIterator, htargets, or_false, List.length_eq_zero_iff]
  split
  · exact ⟨rfl, h⟩
  · refine ⟨Broadcaster.broadcast_single h _ _, ?_⟩
    rw [Broadcaster.broadcast_fst, Broadcaster.purge, List.filter_filter]
    simp only [Bool.and_self]
    exact h

/-- **What a scan does to the state of the handlers**, if one is live: it is called with the events
of each channel that has any, in the order of the map. -/
theorem scan_snd {m : EpicsServiceManager}
    (h : m.handlerBroadcaster.targets.filter alive = [wp]) (s : σ) :
    (scan (fun _ ↦ alive) handler m s).2 =
      m.channelMap.toList.foldl
        (fun s entry ↦ if entry.2.monitor.1 = [] then s else handler wp entry.2.monitor.1 s) s := by
  rw [scan]
  generalize m.channelMap.toList = entries
  induction entries generalizing m s with
  | nil => rfl
  | cons entry entries ih =>
    obtain ⟨hsnd, htargets⟩ := processIterator_single (r := (m, s)) handler entry.1 entry.2 h
    rw [List.foldl_cons, List.foldl_cons, ← hsnd]
    exact ih htargets _

end SingleHandler

end EpicsServiceManager

end Ekg
