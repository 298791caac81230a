import Ekg.Epics.Scan
import Ekg.Lib.LastWrite
import Ekg.Lib.Mutex

/-!
# The channel map under its mutex

`addChannel` makes an entry before the channel is connected and started, and takes it out again in
a `catch`, while the scheduler goes over the same map.  The three public operations and the scan are
critical sections of `channel_map_mutex`, and a section is here as many steps as it has statements
on the map; between the steps the map may hold channels that are not started.

`EpicsServiceManager` executes an operation in one go and carries `ChannelMapInv` as a field.
`Follows.execute` says that a section does what the manager does, so that `shared_of_run` gives the
bare map what is known of the manager whenever the mutex is free.  What the operations have
returned is kept next to the map: `ExposesStarted` relates the two.
-/

set_option autoImplicit false

namespace Ekg

open Steps LastWrite

/-- A call of a public operation, with the stage that throws, if one does. -/
inductive ManagerCall
  | addChannel (channelName protocoll : String) (failure : Option SetupFailure)
  | removeChannel (channelName : String)
  | monitorChannel (channelName : String) (activate : Bool) (failure : Option SetupFailure)
  deriving DecidableEq, Repr

namespace ManagerCall

/-- The channel that the call is about. -/
def channelName : ManagerCall → String
  | addChannel channelName _ _ => channelName
  | removeChannel channelName => channelName
  | monitorChannel channelName _ _ => channelName

/-- The protocol and the failure of the `addChannel` that the call is, or makes. -/
def adds : ManagerCall → Option (String × Option SetupFailure)
  | addChannel _ protocoll failure => some (protocoll, failure)
  | removeChannel _ => none
  | monitorChannel _ activate failure => if activate then some ("pva", failure) else none

/-- The call, on a manager. -/
def apply (m : EpicsServiceManager) : ManagerCall → EpicsServiceManager × Except String Unit
  | addChannel channelName protocoll failure => m.addChannel failure channelName protocoll
  | removeChannel channelName => (m.removeChannel channelName, .ok ())
  | monitorChannel channelName activate failure => m.monitorChannel failure channelName activate

end ManagerCall

/-- What `channel_map_mutex` protects, and what the operations have returned. -/
structure ManagerShared where
  channelMap : EpicsChannelMap
  allocations : ℕ
  returned : List (ManagerCall × Except String Unit)

/-- What is done with the mutex locked. -/
inductive ManagerSection
  | call (call : ManagerCall)
  /-- A scan of the scheduler, after which the subscriptions are what `mon` says. -/
  | scan (mon : String → MonitorSync)

/-- How far a section is. -/
inductive ManagerProgress
  | entered (sec : ManagerSection)
  | constructing (call : ManagerCall) (protocoll : String) (failure : Option SetupFailure)
  | connecting (call : ManagerCall) (failure : Option SetupFailure)
  | starting (call : ManagerCall) (failure : Option SetupFailure)
  /-- In the `catch`. -/
  | throwing (call : ManagerCall) (f : SetupFailure)
  | scanning (mon : String → MonitorSync) (names : List String)
  | left

namespace ManagerShared

/-- The call returns, or throws. -/
def ret (call : ManagerCall) (outcome : Except String Unit) (g : ManagerShared) : ManagerShared :=
  { g with returned := g.returned ++ [(call, outcome)] }

/-- `monitor` is called on the channel of one entry. -/
def scanEntry (mon : String → MonitorSync) (name : String) (g : ManagerShared) : ManagerShared :=
  { g with channelMap := g.channelMap.modify name fun ch ↦ { ch with mon := mon name } }

/-- One statement on the map. -/
def next : ManagerProgress → ManagerShared → Option (ManagerProgress × ManagerShared)
  | .entered (.call call), g =>
    match call.adds with
    | none =>
      some (.left, { g with channelMap := g.channelMap.erase call.channelName }.ret call (.ok ()))
    | some (protocoll, failure) =>
      if call.channelName ∈ g.channelMap then some (.left, g.ret call (.ok ()))
      else some (.constructing call protocoll failure, g)
  | .constructing call protocoll failure, g =>
    match failsAt failure .constructor with
    | some f => some (.throwing call f, { g with allocations := g.allocations + 1 })
    | none => some (.connecting call failure,
      { g with
        channelMap := g.channelMap.insert call.channelName
          { serial := g.allocations, provider := protocoll, channelName := call.channelName }
        allocations := g.allocations + 1 })
  | .connecting call failure, g =>
    match failsAt failure .connect with
    | some f => some (.throwing call f, g)
    | none => some (.starting call failure,
      { g with channelMap := g.channelMap.modify call.channelName EpicsChannel.connect })
  | .starting call failure, g =>
    match failsAt failure .startMonitor with
    | some f => some (.throwing call f, g)
    | none => some (.left,
      { g with channelMap := g.channelMap.modify call.channelName EpicsChannel.startMonitor }.ret
        call (.ok ()))
  | .throwing call f, g =>
    some (.left, { g with channelMap := g.channelMap.erase call.channelName }.ret call
      (.error f.rethrown))
  | .entered (.scan mon), g => some (.scanning mon g.channelMap.keys, g)
  | .scanning mon (name :: names), g => some (.scanning mon names, g.scanEntry mon name)
  | .scanning _ [], _ => none
  | .left, _ => none

/-- The critical sections of `channel_map_mutex`. -/
def sections : Mutex.Sections ManagerShared ManagerSection where
  Local := ManagerProgress
  enter := .entered
  next := next

/-- What the `try` and the `catch` make of the map, from the constructor on. -/
def registered (call : ManagerCall) (g : ManagerShared)
    (r : EpicsChannelMap × Except SetupFailure Unit) : ManagerShared :=
  match r.2 with
  | .ok () => { g with channelMap := r.1 }.ret call (.ok ())
  | .error f => { g with channelMap := r.1.erase call.channelName }.ret call (.error f.rethrown)

/-- A section, executed without interruption. -/
def execute : ManagerSection → ManagerShared → ManagerShared
  | .call call, g =>
    match call.adds with
    | none => { g with channelMap := g.channelMap.erase call.channelName }.ret call (.ok ())
    | some (protocoll, failure) =>
      if call.channelName ∈ g.channelMap then g.ret call (.ok ())
      else
        registered call { g with allocations := g.allocations + 1 }
          (tryRegister failure g.allocations call.channelName protocoll g.channelMap)
  | .scan mon, g => g.channelMap.keys.foldl (fun g name ↦ g.scanEntry mon name) g

theorem finishes_scanning (mon : String → MonitorSync) (names : List String) (g : ManagerShared) :
    sections.Finishes (.scanning mon names) g
      (names.foldl (fun g name ↦ g.scanEntry mon name) g) := by
  induction names generalizing g with
  | nil => exact .done rfl
  | cons name names ih => exact .step rfl (ih _)

theorem finishes_throwing (call : ManagerCall) (f : SetupFailure) (g : ManagerShared) :
    sections.Finishes (.throwing call f) g
      ({ g with channelMap := g.channelMap.erase call.channelName }.ret call
        (.error f.rethrown)) :=
  .step rfl (.done rfl)

theorem finishes_constructing (call : ManagerCall) (protocoll : String)
    (failure : Option SetupFailure) (g : ManagerShared) :
    sections.Finishes (.constructing call protocoll failure) g
      (registered call { g with allocations := g.allocations + 1 }
        (tryRegister failure g.allocations call.channelName protocoll g.channelMap)) := by
  rcases failure with _ | ⟨stage, std⟩
  · exact .step rfl (.step rfl (.step rfl (.done rfl)))
  · cases stage with
    | constructor => exact .step rfl (finishes_throwing call _ _)
    | connect => exact .step rfl (.step rfl (finishes_throwing call _ _))
    | startMonitor => exact .step rfl (.step rfl (.step rfl (finishes_throwing call _ _)))

/-- The steps of a section, one after the other, are the section. -/
theorem finishes_execute (sec : ManagerSection) (g : ManagerShared) :
    sections.Finishes (sections.enter sec) g (execute sec g) := by
  cases sec with
  | scan mon => exact .step rfl (finishes_scanning mon _ g)
  | call call =>
    rcases hadds : call.adds with _ | ⟨protocoll, failure⟩
    · have hnext : next (.entered (.call call)) g = some (.left, execute (.call call) g) := by
        simp only [next, execute, hadds]
      exact .step hnext (.done rfl)
    · by_cases hmem : call.channelName ∈ g.channelMap
      · have hnext : next (.entered (.call call)) g = some (.left, execute (.call call) g) := by
          simp only [next, execute, hadds, if_pos hmem]
        exact .step hnext (.done rfl)
      · have hnext : next (.entered (.call call)) g =
            some (.constructing call protocoll failure, g) := by
          simp only [next, hadds, if_neg hmem]
        refine .step hnext ?_
        simp only [execute, hadds, if_neg hmem]
        exact finishes_constructing call protocoll failure g

end ManagerShared

/-! ## One operation -/

/-- What a call may do to the map: one that throws, or adds what is there already, leaves the whole
map as it was; the others change the entry of their channel, and no other.  An `addChannel` none of
whose stages throws does not throw. -/
structure CallLaw (call : ManagerCall) (outcome : Except String Unit)
    (before after : EpicsChannelMap) : Prop where
  throws : ∀ what, outcome = .error what → after = before
  present : call.adds ≠ none → call.channelName ∈ before → after = before
  others : ∀ name, name ≠ call.channelName → after[name]? = before[name]?
  succeeds : ∀ protocoll, call.adds = some (protocoll, none) → outcome = .ok ()
  adds : call.adds ≠ none → outcome = .ok () → call.channelName ∈ after
  removes : call.adds = none → outcome = .ok () ∧ call.channelName ∉ after

namespace ManagerCall

variable {m : EpicsServiceManager} {call : ManagerCall} {protocoll : String}
  {failure : Option SetupFailure}

theorem apply_of_adds (h : call.adds = some (protocoll, failure)) :
    call.apply m = m.addChannel failure call.channelName protocoll := by
  cases call with
  | addChannel channelName p f =>
    obtain ⟨rfl, rfl⟩ := Prod.mk.inj (Option.some_inj.mp h)
    rfl
  | removeChannel channelName => cases h
  | monitorChannel channelName activate f =>
    cases activate with
    | true =>
      obtain ⟨rfl, rfl⟩ := Prod.mk.inj (Option.some_inj.mp h)
      rfl
    | false => cases h

theorem apply_of_adds_eq_none (h : call.adds = none) :
    call.apply m = (m.removeChannel call.channelName, .ok ()) := by
  cases call with
  | addChannel channelName p f => cases h
  | removeChannel channelName => rfl
  | monitorChannel channelName activate f =>
    cases activate with
    | true => cases h
    | false => rfl

end ManagerCall

namespace EpicsServiceManager

variable {m : EpicsServiceManager} {channelName protocoll : String} {failure : Option SetupFailure}

/-- What `addChannel` does with an absent channel, given what the `try` does. -/
theorem addChannel_of_not_mem {map : EpicsChannelMap} {result : Except SetupFailure Unit}
    (h : channelName ∉ m.channelMap)
    (hreg : tryRegister failure m.allocations channelName protocoll m.channelMap = (map, result)) :
    (m.addChannel failure channelName protocoll).1.allocations = m.allocations + 1 ∧
      ((m.addChannel failure channelName protocoll).1.channelMap,
        (m.addChannel failure channelName protocoll).2) =
      match result with
      | .ok () => (map, .ok ())
      | .error f => (map.erase channelName, .error f.rethrown) := by
  rw [addChannel]
  split
  · rename_i ch hfind
    rw [Std.ExtTreeMap.mem_iff_isSome_getElem?, hfind] at h
    exact absurd rfl h
  · split
    · rename_i hreg'
      obtain ⟨rfl, rfl⟩ := Prod.mk.inj (hreg.symm.trans hreg')
      exact ⟨rfl, rfl⟩
    · rename_i hreg'
      obtain ⟨rfl, rfl⟩ := Prod.mk.inj (hreg.symm.trans hreg')
      exact ⟨rfl, rfl⟩

/-- An `addChannel` that returns leaves the channel in the map. -/
theorem mem_addChannel_of_ok (h : (m.addChannel failure channelName protocoll).2 = .ok ()) :
    channelName ∈ (m.addChannel failure channelName protocoll).1.channelMap := by
  by_cases hmem : channelName ∈ m.channelMap
  · rw [addChannel_of_mem hmem]
    exact hmem
  · cases failure with
    | none =>
      rw [channelMap_addChannel, if_neg hmem]
      exact Std.ExtTreeMap.mem_insert_self
    | some f =>
      obtain ⟨map, hreg⟩ : ∃ map, tryRegister (some f) m.allocations channelName protocoll
          m.channelMap = (map, .error f) := ⟨_, Prod.ext rfl (tryRegister_some f)⟩
      cases h.symm.trans (Prod.mk.inj (addChannel_of_not_mem hmem hreg).2).2

/-- Without a failing stage, `addChannel` returns. -/
theorem addChannel_none_snd : (m.addChannel none channelName protocoll).2 = .ok () := by
  by_cases hmem : channelName ∈ m.channelMap
  · rw [addChannel_of_mem hmem]
  · have hreg : tryRegister none m.allocations channelName protocoll m.channelMap =
        ((tryRegister none m.allocations channelName protocoll m.channelMap).1, .ok ()) := rfl
    exact (Prod.mk.inj (addChannel_of_not_mem hmem hreg).2).2

theorem callLaw_apply (call : ManagerCall) (m : EpicsServiceManager) :
    CallLaw call (call.apply m).2 m.channelMap (call.apply m).1.channelMap := by
  rcases hadds : call.adds with _ | ⟨protocoll, failure⟩
  · rw [ManagerCall.apply_of_adds_eq_none hadds]
    refine ⟨fun what h ↦ ?_, fun h ↦ absurd hadds h, fun name hne ↦ ?_,
      fun _ _ ↦ rfl, fun h ↦ absurd hadds h, fun _ ↦ ⟨rfl, ?_⟩⟩
    · cases h
    · simp [removeChannel, Std.ExtTreeMap.getElem?_erase, Ne.symm hne]
    · simp [removeChannel]
  · rw [ManagerCall.apply_of_adds hadds]
    refine ⟨fun what h ↦ channelMap_addChannel_of_error h, fun _ hmem ↦ ?_, fun name hne ↦ ?_,
      fun protocoll' h ↦ ?_, fun _ h ↦ mem_addChannel_of_ok h, fun h ↦ ?_⟩
    · rw [addChannel_of_mem hmem]
    · cases failure with
      | none =>
        rw [channelMap_addChannel]
        split
        · rfl
        · simp [Std.ExtTreeMap.getElem?_insert, Ne.symm hne]
      | some f => rw [channelMap_addChannel_some]
    · cases hadds.symm.trans h
      exact addChannel_none_snd
    · cases hadds.symm.trans h

end EpicsServiceManager

/-! ## One section -/

namespace ManagerShared

variable {g : ManagerShared} {m : EpicsServiceManager}

/-- The bare map is the one of the manager. -/
structure Follows (g : ManagerShared) (m : EpicsServiceManager) : Prop where
  channelMap : g.channelMap = m.channelMap
  allocations : g.allocations = m.allocations

/-- A section, on a manager. -/
def executeManager (m : EpicsServiceManager) : ManagerSection → EpicsServiceManager
  | .call call => (call.apply m).1
  | .scan mon => m.channelMap.keys.foldl (fun m name ↦ m.announce name (mon name)) m

/-- A call does what the manager does, and returns what the manager returns. -/
theorem execute_call (h : g.Follows m) (call : ManagerCall) :
    execute (.call call) g =
      { channelMap := (call.apply m).1.channelMap
        allocations := (call.apply m).1.allocations
        returned := g.returned ++ [(call, (call.apply m).2)] } := by
  obtain ⟨channelMap, allocations, returned⟩ := g
  obtain ⟨rfl, rfl⟩ := h
  rcases hadds : call.adds with _ | ⟨protocoll, failure⟩
  · rw [ManagerCall.apply_of_adds_eq_none hadds]
    simp only [execute, hadds]
    rfl
  · rw [ManagerCall.apply_of_adds hadds]
    by_cases hmem : call.channelName ∈ m.channelMap
    · rw [EpicsServiceManager.addChannel_of_mem hmem]
      simp only [execute, hadds, if_pos hmem]
      rfl
    · simp only [execute, hadds, if_neg hmem]
      rcases hreg : tryRegister failure m.allocations call.channelName protocoll m.channelMap
        with ⟨map, result⟩
      obtain ⟨hallocations, hpair⟩ := EpicsServiceManager.addChannel_of_not_mem hmem hreg
      cases result with
      | ok =>
        obtain ⟨hmap, hresult⟩ := Prod.mk.inj hpair
        rw [hmap, hresult, hallocations]
        rfl
      | error f =>
        obtain ⟨hmap, hresult⟩ := Prod.mk.inj hpair
        rw [hmap, hresult, hallocations]
        rfl

theorem Follows.scan (h : g.Follows m) (mon : String → MonitorSync) (names : List String) :
    (names.foldl (fun g name ↦ g.scanEntry mon name) g).Follows
      (names.foldl (fun m name ↦ m.announce name (mon name)) m) := by
  induction names generalizing g m with
  | nil => exact h
  | cons name names ih =>
    exact ih ⟨congrArg (fun map ↦ map.modify name fun ch ↦ { ch with mon := mon name })
      h.channelMap, h.allocations⟩

theorem Follows.execute (h : g.Follows m) (sec : ManagerSection) :
    (execute sec g).Follows (executeManager m sec) := by
  cases sec with
  | call call =>
    rw [execute_call h]
    exact ⟨rfl, rfl⟩
  | scan mon =>
    rw [ManagerShared.execute, executeManager, ← h.channelMap]
    exact h.scan mon _

/-- The names whose last successful operation was an `addChannel`. -/
def LastAdded (name : String) (returned : List (ManagerCall × Except String Unit)) : Prop :=
  EndsWith (fun r ↦ r.1.channelName) name (fun r ↦ r.1.adds.isSome)
    (returned.filter fun r ↦ r.2.isOk)

/-- What holds of the map while the mutex is free: every entry was constructed, connected and
started, and the keys are the names that were added last. -/
structure ExposesStarted (g : ManagerShared) : Prop where
  inv : ChannelMapInv g.channelMap
  keys : ∀ name, name ∈ g.channelMap ↔ LastAdded name g.returned

theorem lastAdded_concat_error {name what : String} (call : ManagerCall)
    (returned : List (ManagerCall × Except String Unit)) :
    LastAdded name (returned ++ [(call, .error what)]) ↔ LastAdded name returned := by
  rw [LastAdded, List.filter_append, List.filter_cons_of_neg Bool.false_ne_true, List.filter_nil,
    List.append_nil, LastAdded]

theorem lastAdded_concat_ok {name : String} (call : ManagerCall)
    (returned : List (ManagerCall × Except String Unit)) :
    LastAdded name (returned ++ [(call, .ok ())]) ↔
      if call.channelName = name then call.adds.isSome = true else LastAdded name returned := by
  rw [LastAdded, List.filter_append, List.filter_cons_of_pos rfl, List.filter_nil, endsWith_concat]
  rfl

/-- A call that obeys the law keeps the keys in step with what was returned. -/
theorem mem_iff_of_callLaw {call : ManagerCall} {outcome : Except String Unit} {name : String}
    {before after : EpicsChannelMap} {returned : List (ManagerCall × Except String Unit)}
    (h : CallLaw call outcome before after) (hkeys : name ∈ before ↔ LastAdded name returned) :
    name ∈ after ↔ LastAdded name (returned ++ [(call, outcome)]) := by
  cases outcome with
  | error what => rw [h.throws what rfl, hkeys, lastAdded_concat_error]
  | ok =>
    rw [lastAdded_concat_ok]
    split
    · rename_i hname
      cases hadds : call.adds with
      | none => simpa [hname] using (h.removes hadds).2
      | some r => simpa [hname] using h.adds (by simp [hadds]) rfl
    · rename_i hname
      rw [← hkeys, Std.ExtTreeMap.mem_iff_isSome_getElem?, h.others name (Ne.symm hname),
        ← Std.ExtTreeMap.mem_iff_isSome_getElem?]

theorem mem_foldl_scanEntry (mon : String → MonitorSync) (names : List String) (name : String) :
    name ∈ (names.foldl (fun g name ↦ g.scanEntry mon name) g).channelMap ↔
      name ∈ g.channelMap := by
  induction names generalizing g with
  | nil => rfl
  | cons n names ih => exact ih.trans Std.ExtTreeMap.mem_modify

theorem returned_foldl_scanEntry (mon : String → MonitorSync) (names : List String) :
    (names.foldl (fun g name ↦ g.scanEntry mon name) g).returned = g.returned := by
  induction names generalizing g with
  | nil => rfl
  | cons n names ih => exact ih

/-! ## Any number of threads -/

/-- The threads that use the manager, the scheduler among them. -/
abbrev Threads (ι : Type) := Mutex.State ι sections

/-- No channel was added yet. -/
def empty : ManagerShared where
  channelMap := ∅
  allocations := 0
  returned := []

variable {ι : Type} [DecidableEq ι] {programs : ι → List ManagerSection} {sched : List ι}
  {σ : Threads ι}

omit [DecidableEq ι] in
theorem exposesStarted_executed (entered : List (ι × ManagerSection)) :
    (∃ m, (Mutex.State.executed execute empty entered).Follows m) ∧
      ∀ name, name ∈ (Mutex.State.executed execute empty entered).channelMap ↔
        LastAdded name (Mutex.State.executed execute empty entered).returned := by
  induction entered using List.reverseRecOn with
  | nil =>
    refine ⟨⟨.empty, rfl, rfl⟩, fun name ↦ iff_of_false ?_ not_endsWith_nil⟩
    simp [Mutex.State.executed, empty]
  | append_singleton entered entry ih =>
    obtain ⟨⟨m, hfollows⟩, hkeys⟩ := ih
    rw [Mutex.State.executed_concat]
    refine ⟨⟨_, hfollows.execute entry.2⟩, fun name ↦ ?_⟩
    cases entry.2 with
    | call call =>
      rw [execute_call hfollows]
      have hlaw := EpicsServiceManager.callLaw_apply call m
      rw [← hfollows.channelMap] at hlaw
      exact mem_iff_of_callLaw hlaw (hkeys name)
    | scan mon =>
      rw [execute, mem_foldl_scanEntry, returned_foldl_scanEntry]
      exact hkeys name

/-- **The channel map only ever exposes started channels.**  Whatever the threads call, and
whichever stages throw, while the mutex is free every entry of the map was constructed, connected
and started, and the keys are the names whose last successful operation was an `addChannel`; and
the next call leaves the map as it was if it throws, and changes the entry of its channel only. -/
theorem exposesStarted_of_run
    (h : run Mutex.State.step (Mutex.State.start programs empty : Threads ι) sched = some σ)
    (hfree : σ.owner = none) :
    σ.shared.ExposesStarted ∧
      ∀ sched' τ i call, run Mutex.State.step σ sched' = some τ → τ.owner = none →
        τ.entered = σ.entered ++ [(i, .call call)] →
        ∃ outcome, τ.shared.returned = σ.shared.returned ++ [(call, outcome)] ∧
          CallLaw call outcome σ.shared.channelMap τ.shared.channelMap := by
  have hshared := Mutex.State.shared_of_run finishes_execute h hfree
  obtain ⟨⟨m, hfollows⟩, hkeys⟩ := exposesStarted_executed σ.entered
  rw [← hshared] at hfollows hkeys
  refine ⟨⟨hfollows.channelMap ▸ m.inv, hkeys⟩, fun sched' τ i call hτ hfree' hentered ↦ ?_⟩
  have hshared' : τ.shared = execute (.call call) σ.shared := by
    rw [Mutex.State.shared_of_run finishes_execute ((run_append_of_eq_some h).trans hτ) hfree',
      hentered, Mutex.State.executed_concat, ← hshared]
  rw [hshared', execute_call hfollows, hfollows.channelMap]
  exact ⟨_, rfl, EpicsServiceManager.callLaw_apply call m⟩

/-- One thread adds a channel that cannot be connected, the other one a channel that can. -/
def addTwo (i : Bool) : List ManagerSection :=
  if i then [.call (.addChannel "ramp" "pva" none)]
  else [.call (.addChannel "wrong" "pva" (some ⟨.connect, true⟩))]

/-- The first one leaves the map as it was, and the second one puts its channel into it. -/
theorem exposesStarted_of_run_addTwo :
    ∃ σ τ : Threads Bool, ∃ outcome,
      run Mutex.State.step (Mutex.State.start addTwo empty)
        [false, false, false, false, false, false] = some σ ∧
      σ.shared.ExposesStarted ∧
      run Mutex.State.step σ [true, true, true, true, true, true] = some τ ∧
      CallLaw (.addChannel "ramp" "pva" none) outcome σ.shared.channelMap τ.shared.channelMap ∧
      outcome = .ok () ∧ "ramp" ∈ τ.shared.channelMap ∧ "wrong" ∉ σ.shared.channelMap := by
  obtain ⟨σ, τ, h, hfree, hτ, hfree', hentered, hwrong⟩ : ∃ σ τ : Threads Bool,
      run Mutex.State.step (Mutex.State.start addTwo empty)
        [false, false, false, false, false, false] = some σ ∧ σ.owner = none ∧
      run Mutex.State.step σ [true, true, true, true, true, true] = some τ ∧ τ.owner = none ∧
      τ.entered = σ.entered ++ [(true, .call (.addChannel "ramp" "pva" none))] ∧
      "wrong" ∉ σ.shared.channelMap :=
    ⟨_, _, rfl, rfl, rfl, rfl, rfl, by decide⟩
  obtain ⟨hexposes, hnext⟩ := exposesStarted_of_run h hfree
  obtain ⟨outcome, -, hlaw⟩ := hnext _ τ true _ hτ hfree' hentered
  have houtcome : outcome = .ok () := hlaw.succeeds "pva" rfl
  exact ⟨σ, τ, outcome, h, hexposes, hτ, hlaw, houtcome, hlaw.adds nofun houtcome, hwrong⟩

end ManagerShared

end Ekg
