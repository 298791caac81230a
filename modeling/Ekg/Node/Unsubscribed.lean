import Ekg.Node.Progress
import Ekg.Node.TopicLists

/-!
# Nothing is published to a topic that is not subscribed

The tasks run one at a time here, and the scheduler scans whenever it likes.  A batch of events may
be drained before a topic is removed and handled after it, so what counts is what the lists hold
when the events are handled.

Each entry of the log needs something of the state in which it is made (`Causes`).  A message needs
its topic in the list; a call of a handler needs the channels of its events in the channel map.
What the log says on the other hand (that a deactivation was the last to have its say on a pair,
that `removeChannel` was the last on a channel) means that the topic, or the channel, is not there.
`unsubscribed_of_run` puts the two together.
-/

set_option autoImplicit false

namespace Ekg

open LastWrite Steps

/-- The task is not in `acquireManagement`. -/
def TaskPoint.idle : TaskPoint → Bool
  | .queued => true
  | .finished => true
  | _ => false

namespace Threads

variable {platform : Platform} {σ τ ρ : Threads} {i j : ℕ} {command : AquireCommand}
  {a : ThreadStep} {manager : EpicsServiceManager} {commands : List AquireCommand}
  {sched : List ThreadStep} {s s' : Shared} {point point' : TaskPoint} {c t : String}

/-- Every task but `i` has not started, or is through. -/
def othersIdle (σ : Threads) (i : ℕ) : Bool :=
  σ.tasks.zipIdx.all fun entry ↦ decide (entry.2 = i) || entry.1.2.idle

/-- A step while the tasks run one at a time. -/
def stepSerial (platform : Platform) (σ : Threads) (a : ThreadStep) : Option Threads :=
  match a with
  | .task i failure => if σ.othersIdle i then step platform σ (.task i failure) else none
  | a => step platform σ a

theorem idle_of_othersIdle (h : σ.othersIdle i = true) (hj : σ.tasks[j]? = some (command, point))
    (hne : j ≠ i) : point.idle = true := by
  have hentry := List.all_eq_true.mp h ((command, point), j) (List.mem_zipIdx_iff_getElem?.mpr hj)
  simpa [hne] using hentry

theorem step_of_stepSerial (h : stepSerial platform σ a = some τ) : step platform σ a = some τ := by
  cases a with
  | task i failure => exact (Option.ite_none_right_eq_some.mp h).2
  | _ => exact h

theorem run_of_run_stepSerial
    (h : run (stepSerial platform) σ sched = some τ) : run (step platform) σ sched = some τ :=
  run_mono (fun _ _ _ ↦ step_of_stepSerial) h

/-! ## What it takes to make an entry in the log -/

/-- What the step and the state before it have to be for an entry in the log. -/
def Causes (σ : Threads) (a : ThreadStep) : ThreadEvent → Prop
  | .lookup i command _ => ∃ failure, a = .task i failure ∧ σ.tasks[i]? = some (command, .queued)
  | .pushBack i command => ∃ failure, a = .task i failure ∧ σ.tasks[i]? = some (command, .pushing)
  | .erase i command _ => ∃ failure itr, a = .task i failure ∧
      σ.tasks[i]? = some (command, .erasing itr)
  | .complete i command => ∃ failure activate, a = .task i failure ∧
      σ.tasks[i]? = some (command, .monitoring activate)
  | .added channelName | .removed channelName => ∃ i failure command activate,
      a = .task i failure ∧ σ.tasks[i]? = some (command, .monitoring activate) ∧
      command.channelName = channelName
  | .handled wp eventData => ∃ alive targets rest, a = .scheduler alive ∧
      σ.scan = .calling eventData (wp :: targets) rest
  | .published message => (∃ alive, a = .scheduler alive) ∧
      message.queue ∈ σ.shared.topics message.distributionKey

theorem causes_of_step (h : step platform σ a = some τ) :
    ∃ events, τ.shared.log = σ.shared.log ++ events ∧ ∀ e ∈ events, σ.Causes a e := by
  cases a with
  | task i failure =>
    obtain ⟨command, point, point', s, htask, hadv, rfl⟩ := step_task_eq_some.mp h
    cases point with
    | absent | present itr | updated | decided activate | finished =>
      obtain ⟨-, -, hlog⟩ := shared_advanceTask hadv rfl
      exact ⟨[], by rw [hlog, List.append_nil], by simp⟩
    | queued | pushing | erasing itr =>
      cases hadv
      refine ⟨_, rfl, fun e he ↦ ?_⟩
      rw [List.mem_singleton.mp he]
      simp [Causes, htask]
    | monitoring activate =>
      cases hadv
      refine ⟨_, rfl, fun e he ↦ ?_⟩
      rcases List.mem_append.mp he with he | he
      · rw [monitorRecord] at he
        have hchannel : e = .added command.channelName ∨ e = .removed command.channelName := by
          repeat' split at he
          all_goals simp_all
        rcases hchannel with rfl | rfl <;>
          exact ⟨i, failure, command, activate, rfl, htask, rfl⟩
      · rw [List.mem_singleton.mp he]
        exact ⟨failure, activate, rfl, htask⟩
  | scheduler alive =>
    obtain ⟨scan, s, hadv, rfl⟩ := step_scheduler_eq_some.mp h
    obtain ⟨events, heffect⟩ := exists_scanEffect hadv
    refine ⟨events, heffect.log, fun e he ↦ ?_⟩
    rcases heffect.mem_events e he with ⟨wp, eventData, targets, rest, hscan, rfl⟩ |
      ⟨message, rfl, hmem⟩
    · exact ⟨alive, targets, rest, rfl, hscan⟩
    · exact ⟨⟨alive, rfl⟩, hmem⟩
  | arrive channelName mon =>
    cases h
    exact ⟨[], (List.append_nil _).symm, by simp⟩

end Threads

/-! ## One task at a time -/

/-- What a task knows of the list of its channel while no other task is at work. -/
def TaskPoint.Fits (s : Shared) (command : AquireCommand) : TaskPoint → Prop
  | .queued | .finished => True
  | .absent | .pushing => command.activate = true ∧
      command.destinationTopic ∉ s.topics command.channelName
  | .present itr | .erasing itr => command.activate = false ∧
      itr.valid (s.changes command.channelName) = true ∧
      (s.topics command.channelName)[itr.position]? = some command.destinationTopic
  | .updated | .decided _ | .monitoring _ =>
      (command.destinationTopic ∈ s.topics command.channelName ↔ command.activate = true)

theorem TaskPoint.fits_of_idle {s : Shared} {command : AquireCommand} {point : TaskPoint}
    (h : point.idle = true) : point.Fits s command := by
  cases point with
  | queued | finished => trivial
  | _ => cases h

theorem TaskPoint.Fits.congr {s s' : Shared} {command : AquireCommand} {point : TaskPoint}
    (h : point.Fits s command) (htopics : s'.topics = s.topics)
    (hchanges : s'.changes = s.changes) : point.Fits s' command := by
  cases point with
  | queued | finished => trivial
  | _ => simpa only [Fits, htopics, hchanges] using h

namespace Threads

variable {platform : Platform} {σ τ ρ : Threads} {i j : ℕ} {command : AquireCommand}
  {a : ThreadStep} {manager : EpicsServiceManager} {commands : List AquireCommand}
  {sched : List ThreadStep} {s s' : Shared} {point point' : TaskPoint} {c t : String}
  {failure : Option SetupFailure}

/-- What is true while the tasks run one at a time. -/
structure OneAtATime (σ : Threads) : Prop where
  nodup : ∀ c, (σ.shared.topics c).Nodup
  fits : ∀ (i : ℕ) (command : AquireCommand) (point : TaskPoint),
    σ.tasks[i]? = some (command, point) → point.Fits σ.shared command

theorem oneAtATime_start (manager : EpicsServiceManager) (commands : List AquireCommand) :
    (start manager commands).OneAtATime := by
  refine ⟨(nodupInv_start manager commands).nodup, fun i command point htask ↦ ?_⟩
  obtain ⟨command', -, heq⟩ := List.mem_map.mp (List.mem_of_getElem? htask)
  cases heq
  trivial

/-- The point of a task fits after a step of its own as well, and no list gets a duplicate. -/
theorem fits_advanceTask (h : advanceTask platform i command failure s point = some (point', s'))
    (hnodup : ∀ c, (s.topics c).Nodup) (hfits : point.Fits s command) :
    point'.Fits s' command ∧ ∀ c, (s'.topics c).Nodup := by
  cases point with
  | queued =>
    rw [advanceTask_queued, Option.some_inj, Prod.mk.injEq] at h
    obtain ⟨rfl, rfl⟩ := h
    have htopics : ∀ c, (s.state.channelTopicsMap.lookup command.channelName).topics c =
        s.topics c := fun c ↦ ChannelTopicsMap.topics_lookup _ _
    refine ⟨TaskPoint.Fits.congr (s := s) ?_ (funext htopics) rfl, fun c ↦ ?_⟩
    · by_cases hmem : command.destinationTopic ∈ s.topics command.channelName <;>
        cases hactivate : command.activate <;>
        simp [TaskPoint.Fits, hmem, hactivate, VectorIterator.valid]
    · show ((s.state.channelTopicsMap.lookup command.channelName).topics c).Nodup
      rw [htopics c]
      exact hnodup c
  | absent | present itr =>
    obtain ⟨mtx, -, heq⟩ := Option.map_eq_some_iff.mp h
    cases heq
    exact ⟨hfits, hnodup⟩
  | pushing =>
    cases h
    obtain ⟨hactivate, hmem⟩ := hfits
    refine ⟨by simp [TaskPoint.Fits, hactivate], fun c ↦ ?_⟩
    simp only [Shared.topics_record, Shared.topics_setTopics]
    split
    · rw [← List.concat_eq_append]
      exact (hnodup _).concat hmem
    · exact hnodup c
  | erasing itr =>
    cases h
    obtain ⟨hactivate, hvalid, hpoints⟩ := hfits
    refine ⟨?_, fun c ↦ ?_⟩
    · simp only [TaskPoint.Fits, hactivate, hvalid, Shared.topics_record, Shared.topics_setTopics,
        if_true, Bool.false_eq_true, iff_false]
      exact VectorIterator.not_mem_eraseIdx (hnodup _) hpoints
    · simp only [hvalid, Shared.topics_record, Shared.topics_setTopics, if_true]
      split
      · exact (hnodup _).eraseIdx _
      · exact hnodup c
  | updated =>
    cases h
    exact ⟨hfits, hnodup⟩
  | decided activate =>
    simp only [advanceTask, Option.ite_none_right_eq_some, Option.some_inj, Prod.mk.injEq] at h
    obtain ⟨-, rfl, rfl⟩ := h
    exact ⟨hfits, hnodup⟩
  | monitoring activate =>
    cases h
    exact ⟨trivial, hnodup⟩
  | finished => cases h

theorem OneAtATime.of_step (hσ : σ.OneAtATime) (h : stepSerial platform σ a = some τ) :
    τ.OneAtATime := by
  cases a with
  | task i failure =>
    obtain ⟨hidle, hstep⟩ := Option.ite_none_right_eq_some.mp h
    obtain ⟨command, point, point', s, htask, hadv, rfl⟩ := step_task_eq_some.mp hstep
    obtain ⟨hfits, hnodup⟩ := fits_advanceTask hadv hσ.nodup (hσ.fits i command point htask)
    refine ⟨hnodup, fun j command' point'' hj ↦ ?_⟩
    by_cases hij : i = j
    · subst hij
      rw [List.getElem?_set_self (List.getElem?_eq_some_iff.mp htask).1] at hj
      cases hj
      exact hfits
    · -- the others have nothing to know
      rw [List.getElem?_set_ne hij] at hj
      exact TaskPoint.fits_of_idle (idle_of_othersIdle hidle hj (Ne.symm hij))
  | scheduler alive =>
    obtain ⟨scan, s, hadv, rfl⟩ := step_scheduler_eq_some.mp h
    obtain ⟨events, heffect⟩ := exists_scanEffect hadv
    refine ⟨fun c ↦ heffect.topics ▸ hσ.nodup c, fun j command point hj ↦ ?_⟩
    exact (hσ.fits j command point hj).congr heffect.topics heffect.changes
  | arrive channelName mon =>
    cases h
    exact ⟨hσ.nodup, fun j command point hj ↦ (hσ.fits j command point hj).congr rfl rfl⟩

/-- While the tasks run one at a time, iterators are valid. -/
theorem OneAtATime.valid {itr : VectorIterator} (hσ : σ.OneAtATime)
    (htask : σ.tasks[i]? = some (command, .erasing itr)) :
    itr.valid (σ.shared.changes command.channelName) = true :=
  (hσ.fits i command (.erasing itr) htask).2.1

end Threads

/-! ## Pairs that are not subscribed -/

/-- The pair that an activation has pushed, or that a deactivation is through with. -/
def ThreadEvent.decides? : ThreadEvent → Option (String × String)
  | .pushBack _ command => some command.target
  | .complete _ command => if command.activate then none else some command.target
  | _ => none

/-- The event is the end of a task. -/
def ThreadEvent.isComplete : ThreadEvent → Bool
  | .complete _ _ => true
  | _ => false

/-- A deactivation of the pair is through, and no activation has pushed it since. -/
def Deactivated (log : List ThreadEvent) (pair : String × String) : Prop :=
  EndsWith ThreadEvent.decides? (some pair) ThreadEvent.isComplete log

namespace Threads

variable {platform : Platform} {σ τ ρ : Threads} {i j : ℕ} {command : AquireCommand}
  {a : ThreadStep} {manager : EpicsServiceManager} {commands : List AquireCommand}
  {sched : List ThreadStep} {s s' : Shared} {point point' : TaskPoint} {c t : String}
  {failure : Option SetupFailure} {scan scan' : ScanPoint} {keptOut : Bool} {alive : ℕ → Bool}

/-- **A topic is not in the list after its deactivation.** -/
theorem OneAtATime.not_mem_of_deactivated (hσ : σ.OneAtATime)
    (hold : Deactivated σ.shared.log (c, t) → t ∉ σ.shared.topics c)
    (h : step platform σ a = some τ) (hdeactivated : Deactivated τ.shared.log (c, t)) :
    t ∉ τ.shared.topics c := by
  obtain ⟨events, hlog, hcauses⟩ := causes_of_step h
  rw [hlog] at hdeactivated
  rcases hdeactivated.of_append with ⟨e, he, hpair, hcomplete⟩ | ⟨hother, hdeactivated⟩
  · -- the deactivation has just come to its end
    cases e with
    | complete j command =>
      obtain ⟨failure, activate, rfl, htask⟩ := hcauses _ he
      have hfits : command.destinationTopic ∈ σ.shared.topics command.channelName ↔
        command.activate = true := hσ.fits j command _ htask
      have hpair' : command.activate = false ∧ command.target = (c, t) := by
        simpa [ThreadEvent.decides?] using hpair
      obtain ⟨hactivate, htarget⟩ := hpair'
      cases htarget
      cases listStep_of_step h with
      | quiet events' hlog' hevents htopics hchanges =>
        rw [htopics, hfits, hactivate]
        exact Bool.false_ne_true
      | pushBack command' reallocates htask' => cases htask.symm.trans htask'
      | erase command' itr htask' => cases htask.symm.trans htask'
    | _ => cases hcomplete
  · have hnot := hold hdeactivated
    cases listStep_of_step h with
    | quiet events' hlog' hevents htopics hchanges => rwa [htopics]
    | pushBack command reallocates htask hlog' htopics hchanges =>
      have hne := hother (.pushBack _ command)
        (List.append_cancel_left (hlog.symm.trans hlog') ▸ List.mem_singleton_self _)
      rw [htopics]
      split
      · rename_i hc
        subst hc
        intro hmem
        rcases List.mem_append.mp hmem with hmem | hmem
        · exact hnot hmem
        · exact hne (by rw [List.mem_singleton.mp hmem]; rfl)
      · exact hnot
    | erase command itr htask hlog' htopics hchanges =>
      rw [htopics (hσ.valid htask)]
      split
      · exact fun hmem ↦ hnot (List.mem_of_mem_eraseIdx hmem)
      · exact hnot

theorem oneAtATime_of_run
    (h : run (stepSerial platform) (start manager commands) sched = some σ) : σ.OneAtATime :=
  run_invariant (P := OneAtATime) (fun _ _ _ hstep hρ ↦ hρ.of_step hstep) h
    (oneAtATime_start manager commands)

theorem not_mem_of_run
    (h : run (stepSerial platform) (start manager commands) sched = some σ)
    (hdeactivated : Deactivated σ.shared.log (c, t)) : t ∉ σ.shared.topics c := by
  have hboth : σ.OneAtATime ∧ (Deactivated σ.shared.log (c, t) → t ∉ σ.shared.topics c) := by
    refine run_invariant
      (P := fun ρ ↦ ρ.OneAtATime ∧ (Deactivated ρ.shared.log (c, t) → t ∉ ρ.shared.topics c))
      (fun _ _ _ hstep hρ ↦ ⟨hρ.1.of_step hstep, hρ.1.not_mem_of_deactivated hρ.2
        (step_of_stepSerial hstep)⟩) h ⟨oneAtATime_start manager commands, fun hnil ↦ ?_⟩
    exact absurd hnil not_endsWith_nil
  exact hboth.2 hdeactivated

end Threads

/-! ## Channels that are not monitored -/

/-- The channel that is added or removed. -/
def ThreadEvent.channel? : ThreadEvent → Option String
  | .added channelName => some channelName
  | .removed channelName => some channelName
  | _ => none

/-- The event is the return of `removeChannel`. -/
def ThreadEvent.isRemoved : ThreadEvent → Bool
  | .removed _ => true
  | _ => false

/-- `removeChannel` has returned for the channel, and it was not added since. -/
def Removed (log : List ThreadEvent) (channelName : String) : Prop :=
  EndsWith ThreadEvent.channel? (some channelName) ThreadEvent.isRemoved log

/-- The events that the scheduler has at hand. -/
def ScanPoint.eventData : ScanPoint → List MonitorEvent
  | .calling eventData _ _ => eventData
  | .handling eventData _ _ => eventData
  | _ => []

namespace Threads

variable {platform : Platform} {σ τ ρ : Threads} {i j : ℕ} {command : AquireCommand}
  {a : ThreadStep} {manager : EpicsServiceManager} {commands : List AquireCommand}
  {sched : List ThreadStep} {s s' : Shared} {point point' : TaskPoint} {c t : String}
  {failure : Option SetupFailure} {scan scan' : ScanPoint} {keptOut : Bool} {alive : ℕ → Bool}

/-- Only a task that holds `channel_map_mutex` touches the service manager. -/
theorem manager_advanceTask (h : advanceTask platform i command failure s point = some (point', s'))
    (hpoint : point.inManager = false) : s'.state.manager = s.state.manager := by
  cases point with
  | absent | present itr | updated | decided activate | finished =>
    rw [(shared_advanceTask h rfl).1]
  | monitoring activate => cases hpoint
  | _ =>
    cases h
    rfl

/-- A channel that is there after `monitorChannel` was not removed by it, and was there or was
added. -/
theorem mem_monitorRecord {m : EpicsServiceManager} {channelName : String} {activate : Bool}
    (h : c ∈ (m.monitorChannel failure channelName activate).1.channelMap) :
    .removed c ∉ monitorRecord channelName activate m
        (m.monitorChannel failure channelName activate).1 ∧
      (c ∈ m.channelMap ∨ .added c ∈ monitorRecord channelName activate m
        (m.monitorChannel failure channelName activate).1) := by
  cases activate with
  | false =>
    have hmem : channelName ≠ c ∧ c ∈ m.channelMap := by
      simpa [EpicsServiceManager.monitorChannel, EpicsServiceManager.removeChannel] using h
    exact ⟨by simpa [monitorRecord] using Ne.symm hmem.1, Or.inl hmem.2⟩
  | true =>
    simp only [EpicsServiceManager.monitorChannel, if_true] at h ⊢
    refine ⟨?_, ?_⟩
    · rw [monitorRecord, if_pos rfl]
      split <;> simp
    · by_cases hc : channelName = c
      · subst hc
        by_cases hmem : channelName ∈ m.channelMap
        · exact Or.inl hmem
        · right
          rw [monitorRecord, if_pos rfl, if_pos ⟨hmem, h⟩]
          exact List.mem_singleton_self _
      · exact Or.inl ((EpicsServiceManager.mem_addChannel_of_ne hc).mp h)

/-- How a channel comes to be in the channel map after a step. -/
theorem mem_channelMap_step (h : step platform σ a = some τ) :
    ∃ events, τ.shared.log = σ.shared.log ++ events ∧
      ∀ c ∈ τ.shared.state.manager.channelMap, .removed c ∉ events ∧
        (c ∈ σ.shared.state.manager.channelMap ∨ .added c ∈ events) := by
  obtain ⟨events, hlog, hcauses⟩ := causes_of_step h
  refine ⟨events, hlog, fun c hc ↦ ?_⟩
  cases a with
  | task i failure =>
    obtain ⟨command, point, point', s, htask, hadv, rfl⟩ := step_task_eq_some.mp h
    by_cases hpoint : point.inManager = true
    · cases point with
      | monitoring activate =>
        cases hadv
        obtain ⟨hremoved, hmem⟩ := mem_monitorRecord hc
        rw [← List.append_cancel_left hlog]
        refine ⟨fun hin ↦ ?_, hmem.imp_right (List.mem_append_left _)⟩
        rcases List.mem_append.mp hin with hin | hin
        · exact hremoved hin
        · cases List.mem_singleton.mp hin
      | _ => cases hpoint
    · rw [Bool.not_eq_true] at hpoint
      have hsame := manager_advanceTask hadv hpoint
      refine ⟨fun hremoved ↦ ?_, Or.inl (hsame ▸ hc)⟩
      obtain ⟨i', _, command', activate, heq, htask', -⟩ := hcauses _ hremoved
      cases heq
      cases htask.symm.trans htask'
      cases hpoint
  | scheduler alive =>
    obtain ⟨scan, s, hadv, rfl⟩ := step_scheduler_eq_some.mp h
    obtain ⟨_, heffect⟩ := exists_scanEffect hadv
    refine ⟨fun hremoved ↦ ?_, Or.inl ((heffect.mem_channelMap c).mp hc)⟩
    obtain ⟨_, _, _, _, heq, -⟩ := hcauses _ hremoved
    cases heq
  | arrive channelName mon =>
    cases h
    refine ⟨fun hremoved ↦ ?_, Or.inl (by simpa [EpicsServiceManager.announce] using hc)⟩
    obtain ⟨_, _, _, _, heq, -⟩ := hcauses _ hremoved
    cases heq

/-- **A removed channel is not monitored.** -/
theorem not_mem_of_removed (h : run (step platform) (start manager commands) sched = some σ)
    (hremoved : Removed σ.shared.log c) : c ∉ σ.shared.state.manager.channelMap := by
  refine run_invariant
    (P := fun ρ ↦ Removed ρ.shared.log c → c ∉ ρ.shared.state.manager.channelMap)
    (fun ρ a ρ' hstep hρ hremoved' hmem ↦ ?_) h (fun hnil ↦ ?_) hremoved
  case refine_2 => exact absurd hnil not_endsWith_nil
  obtain ⟨events, hlog, hchannels⟩ := mem_channelMap_step hstep
  obtain ⟨hnot, hold⟩ := hchannels c hmem
  rw [hlog] at hremoved'
  rcases hremoved'.of_append with ⟨e, he, hchannel, hremove⟩ | ⟨hother, hremoved''⟩
  · cases e with
    | removed channelName =>
      cases hchannel
      exact hnot he
    | _ => cases hremove
  · rcases hold with hold | hadded
    · exact hρ hremoved'' hold
    · exact hother _ hadded rfl

/-- Where the scheduler has its events from. -/
theorem eventData_advanceScan (h : advanceScan platform keptOut alive s scan = some (scan', s'))
    {e : MonitorEvent} (he : e ∈ scan'.eventData) :
    e ∈ scan.eventData ∨ e.channelName ∈ s.state.manager.channelMap := by
  cases scan with
  | sleeping =>
    simp only [advanceScan, Option.ite_none_right_eq_some, Option.some_inj, Prod.mk.injEq] at h
    obtain ⟨-, rfl, -⟩ := h
    cases he
  | scanning rest =>
    cases rest with
    | nil =>
      cases h
      cases he
    | cons name rest =>
      simp only [advanceScan] at h
      split at h
      · cases h
        cases he
      · rename_i ch hch
        split at h <;> cases h
        · cases he
        · -- the events of a channel carry the name that it is filed under
          right
          rw [EpicsChannel.channelName_of_mem_monitor he, s.state.manager.inv.named name ch hch]
          exact Std.ExtTreeMap.mem_iff_isSome_getElem?.mpr (by rw [hch]; rfl)
  | calling eventData targets rest =>
    left
    cases targets with
    | nil =>
      cases h
      cases he
    | cons wp targets =>
      simp only [advanceScan] at h
      split at h
      · split at h
        · obtain ⟨mtx, -, heq⟩ := Option.map_eq_some_iff.mp h
          cases heq
          exact he
        · cases h
          exact he
      · cases h
        exact he
  | handling eventData targets rest =>
    cases h
    exact Or.inl he

/-- The events that the scheduler has at hand are of channels that are monitored. -/
theorem channelName_mem_of_run
    (h : run (step platform) (start manager commands) sched = some σ) :
    ∀ e ∈ σ.scan.eventData, e.channelName ∈ σ.shared.state.manager.channelMap := by
  have hboth : σ.Locked ∧
      ∀ e ∈ σ.scan.eventData, e.channelName ∈ σ.shared.state.manager.channelMap := by
    refine run_invariant
      (P := fun ρ ↦ ρ.Locked ∧
        ∀ e ∈ ρ.scan.eventData, e.channelName ∈ ρ.shared.state.manager.channelMap)
      (fun ρ a ρ' hstep hρ ↦ ⟨locked_step hstep hρ.1, fun e he ↦ ?_⟩) h
      ⟨locked_start manager commands, by simp [start, ScanPoint.eventData]⟩
    obtain ⟨hlocked, hevents⟩ := hρ
    cases a with
    | task i failure =>
      obtain ⟨command, point, point', s, htask, hadv, rfl⟩ := step_task_eq_some.mp hstep
      have hscan : ρ.HoldsManager .scheduler := by
        rw [HoldsManager]
        cases hscan : ρ.scan <;> simp [hscan, ScanPoint.eventData, ScanPoint.inScan] at he ⊢
      -- the scheduler holds the mutex that a task needs for the channel map
      have hpoint : point.inManager = false := by
        rw [← Bool.not_eq_true]
        intro hpoint
        have htask' : ρ.HoldsManager (.task i) := by
          rw [HoldsManager, point?, htask]
          exact hpoint
        cases ((hlocked.manager _).mpr hscan).symm.trans ((hlocked.manager _).mpr htask')
      have hsame := manager_advanceTask hadv hpoint
      exact hsame ▸ hevents e he
    | scheduler alive =>
      obtain ⟨scan, s, hadv, rfl⟩ := step_scheduler_eq_some.mp hstep
      obtain ⟨_, heffect⟩ := exists_scanEffect hadv
      exact (heffect.mem_channelMap _).mpr ((eventData_advanceScan hadv he).elim (hevents e) id)
    | arrive channelName mon =>
      cases hstep
      exact (EpicsServiceManager.mem_withMon _ _ _ _).mpr (hevents e he)
  exact hboth.2

/-! ## The result -/

/-- The step that makes an entry, and what it makes before it. -/
theorem exists_step_of_event {before after : List ThreadEvent} {e : ThreadEvent}
    (h : run (stepSerial platform) (start manager commands) sched = some σ)
    (hlog : σ.shared.log = before ++ e :: after) :
    ∃ done a rest ρ ρ' new, sched = done ++ a :: rest ∧
      run (stepSerial platform) (start manager commands) done = some ρ ∧
      stepSerial platform ρ a = some ρ' ∧ before = ρ.shared.log ++ new ∧
      before ++ [e] <+: ρ'.shared.log ∧ (∀ e' ∈ new, ρ.Causes a e') ∧ ρ.Causes a e := by
  obtain ⟨done, a, rest, ρ, ρ', new, after', hsched, hρ, hstep, hbefore, hlog'⟩ :=
    exists_step_of_log (fun ρ : Threads ↦ ρ.shared.log)
      (fun _ a _ hstep ↦ log_prefix_of_step a (step_of_stepSerial hstep)) h rfl hlog
  obtain ⟨events, hevents, hcauses⟩ := causes_of_step (step_of_stepSerial hstep)
  have hnew : events = new ++ e :: after' := by
    rw [hlog', hbefore, List.append_assoc] at hevents
    exact (List.append_cancel_left hevents).symm
  refine ⟨done, a, rest, ρ, ρ', new, hsched, hρ, hstep, hbefore, ⟨after', ?_⟩, fun e' he' ↦ ?_, ?_⟩
  · rw [hlog', List.append_assoc]
    rfl
  · exact hcauses e' (hnew ▸ List.mem_append_left _ he')
  · exact hcauses e (hnew ▸ List.mem_append_right _ List.mem_cons_self)

/-- What is pushed is the topic of an activation. -/
theorem activate_of_pushBack (h : run (stepSerial platform) (start manager commands) sched = some σ)
    (hmem : .pushBack i command ∈ σ.shared.log) : command.activate = true := by
  obtain ⟨before, after, hlog⟩ := List.append_of_mem hmem
  obtain ⟨_, _, _, ρ, _, _, -, hρ, -, -, -, -, failure, -, htask⟩ := exists_step_of_event h hlog
  exact ((oneAtATime_of_run hρ).fits i command .pushing htask).1

/-- While the scheduler makes entries, the last one on a pair or on a channel stays the last. -/
theorem endsWith_scheduler {κ : Type} [DecidableEq κ] {key : ThreadEvent → Option κ} {k : κ}
    {P : ThreadEvent → Bool} {log new : List ThreadEvent}
    (hnew : ∀ e ∈ new, σ.Causes (.scheduler alive) e)
    (hkey : ∀ e, σ.Causes (.scheduler alive) e → key e = none)
    (h : EndsWith key (some k) P (log ++ new)) : EndsWith key (some k) P log :=
  (endsWith_append_of_ne fun e he ↦ by simp [hkey e (hnew e he)]).mp h

/-- **Nothing is published to a topic that is not subscribed**, while the tasks run one at a time
and the scheduler scans at any time in between: a message is pushed in a step before and after which
its topic is in the list of its channel; after a deactivation is through, no message of its pair is
pushed before an activation has pushed the topic again; and after `removeChannel` has returned, no
event of the channel reaches a handler before the channel is added again. -/
theorem unsubscribed_of_run
    (h : run (stepSerial platform) (start manager commands) sched = some σ) :
    (∀ before message after, σ.shared.log = before ++ .published message :: after →
      ∃ done a rest ρ ρ', sched = done ++ a :: rest ∧
        run (stepSerial platform) (start manager commands) done = some ρ ∧
        stepSerial platform ρ a = some ρ' ∧
        ρ.shared.log <+: before ∧ before ++ [.published message] <+: ρ'.shared.log ∧
        message.queue ∈ ρ.shared.topics message.distributionKey ∧
        message.queue ∈ ρ'.shared.topics message.distributionKey) ∧
    (∀ before i deactivation between message after,
      σ.shared.log = before ++ .complete i deactivation :: between ++ .published message :: after →
      deactivation.activate = false →
      deactivation.target = (message.distributionKey, message.queue) →
      ∃ j activation, .pushBack j activation ∈ between ∧ activation.activate = true ∧
        activation.target = deactivation.target) ∧
    ∀ before c between wp eventData after,
      σ.shared.log = before ++ .removed c :: between ++ .handled wp eventData :: after →
      (∃ e ∈ eventData, e.channelName = c) → .added c ∈ between := by
  refine ⟨fun before message after hlog ↦ ?_, fun before i deactivation between message after hlog
    hactivate htarget ↦ ?_, fun before c between wp eventData after hlog hevent ↦ ?_⟩
  · obtain ⟨done, a, rest, ρ, ρ', new, hsched, hρ, hstep, hbefore, hlog', -, halive, hmem⟩ :=
      exists_step_of_event h hlog
    obtain ⟨alive, rfl⟩ := halive
    refine ⟨done, _, rest, ρ, ρ', hsched, hρ, hstep, ⟨new, hbefore.symm⟩, hlog', hmem, ?_⟩
    cases listStep_of_step (step_of_stepSerial hstep) with
    | quiet events hevents hquiet htopics hchanges => rwa [htopics]
  · by_contra hnone
    have hdeactivated : Deactivated (before ++ .complete i deactivation :: between)
        (message.distributionKey, message.queue) := by
      refine endsWith_append_cons (by simp [ThreadEvent.decides?, hactivate, htarget]) rfl
        fun e he hpair ↦ ?_
      cases e with
      | complete j command => rfl
      | pushBack j activation =>
        have hmem : .pushBack j activation ∈ σ.shared.log := by simp [hlog, he]
        have hactivation := activate_of_pushBack h hmem
        exact absurd ⟨j, activation, he, hactivation, (Option.some_inj.mp hpair).trans
          htarget.symm⟩ hnone
      | _ => cases hpair
    obtain ⟨done, a, rest, ρ, ρ', new, -, hρ, -, hbefore, -, hnew, halive, hmem⟩ :=
      exists_step_of_event h hlog
    obtain ⟨alive, rfl⟩ := halive
    rw [hbefore] at hdeactivated
    refine not_mem_of_run hρ (endsWith_scheduler hnew (fun e he ↦ ?_) hdeactivated) hmem
    cases e with
    | pushBack | complete => simp [Causes] at he
    | _ => rfl
  · obtain ⟨e, he, rfl⟩ := hevent
    by_contra hnone
    have hremoved : Removed (before ++ .removed e.channelName :: between) e.channelName := by
      refine endsWith_append_cons rfl rfl fun e' he' hchannel ↦ ?_
      cases e' with
      | removed channelName => rfl
      | added channelName =>
        cases hchannel
        exact absurd he' hnone
      | _ => cases hchannel
    obtain ⟨done, a, rest, ρ, ρ', new, -, hρ, -, hbefore, -, hnew, alive, targets, rest', rfl,
      hscan⟩ := exists_step_of_event h hlog
    have hρ' := run_of_run_stepSerial hρ
    rw [hbefore] at hremoved
    refine not_mem_of_removed hρ' (endsWith_scheduler hnew (fun e' he' ↦ ?_) hremoved)
      (channelName_mem_of_run hρ' e (by rw [hscan]; exact he))
    cases e' with
    | added | removed => simp [Causes] at he'
    | _ => rfl

/-- Two updates are published between an activation and the deactivation of its topic. -/
theorem unsubscribed_of_run_ramp :
    ∃ σ, run (stepSerial ⟨fun _ ↦ true, fun vec _ ↦ vec, true, fun _ ↦ 0, 0⟩)
        (start rampManager [⟨"pva", "channel:ramp:ramp", true, "acquire_comad_in"⟩,
          ⟨"pva", "channel:ramp:ramp", false, "acquire_comad_in"⟩])
        (List.replicate 6 (.task 0 none) ++ List.replicate 6 (.scheduler fun _ ↦ true) ++
          List.replicate 6 (.task 1 none)) = some σ ∧
      .published (monitorMessage "channel:ramp:ramp" "acquire_comad_in" "2") ∈ σ.shared.log ∧
      (∀ before i deactivation between message after,
        σ.shared.log =
          before ++ .complete i deactivation :: between ++ .published message :: after →
        deactivation.activate = false →
        deactivation.target = (message.distributionKey, message.queue) →
        ∃ j activation, .pushBack j activation ∈ between ∧ activation.activate = true ∧
          activation.target = deactivation.target) ∧
      ∀ before c between wp eventData after,
        σ.shared.log = before ++ .removed c :: between ++ .handled wp eventData :: after →
        (∃ e ∈ eventData, e.channelName = c) → .added c ∈ between := by
  obtain ⟨σ, h, hmem⟩ : ∃ σ,
      run (stepSerial ⟨fun _ ↦ true, fun vec _ ↦ vec, true, fun _ ↦ 0, 0⟩)
        (start rampManager [⟨"pva", "channel:ramp:ramp", true, "acquire_comad_in"⟩,
          ⟨"pva", "channel:ramp:ramp", false, "acquire_comad_in"⟩])
        (List.replicate 6 (.task 0 none) ++ List.replicate 6 (.scheduler fun _ ↦ true) ++
          List.replicate 6 (.task 1 none)) = some σ ∧
      .published (monitorMessage "channel:ramp:ramp" "acquire_comad_in" "2") ∈ σ.shared.log :=
    ⟨_, rfl, by decide⟩
  exact ⟨σ, h, hmem, (unsubscribed_of_run h).2⟩

end Threads

end Ekg