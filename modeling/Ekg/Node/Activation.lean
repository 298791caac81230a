import Ekg.Node.Delivery

/-!
# From the command on

`values_of_run` begins when a topic is subscribed and its channel monitored.  It comes to that when
the task of a command that activates the topic is executed, among the tasks of other commands, which
are for other channels or activate other topics, and while the scheduler scans the channels.  When
the task is finished the state is `Steady` (`steady_of_run`), in whatever order the steps were, and
from then on every update that arrives is published to the topic, or on its way to it, once
(`values_of_activation`).
-/

set_option autoImplicit false

namespace Ekg

open Steps

namespace Threads

variable {platform : Platform} {σ τ : Threads} {i j : ℕ} {command : AquireCommand}
  {failure : Option SetupFailure} {s s' : Shared} {point point' : TaskPoint} {a : ThreadStep}
  {c t : String} {updates : List PVStructure} {sched sched' : List ThreadStep}
  {manager : EpicsServiceManager} {commands : List AquireCommand}

/-! ## One task -/

/-- The task has found its topic in the list, or has pushed it. -/
def listed : TaskPoint → Bool
  | .updated | .decided _ | .monitoring _ | .finished => true
  | _ => false

/-- A task changes the handlers of the service manager in no way. -/
theorem handlerBroadcaster_advanceTask
    (h : advanceTask platform i command failure s point = some (point', s')) :
    s'.state.manager.handlerBroadcaster = s.state.manager.handlerBroadcaster := by
  cases point with
  | absent | present itr =>
    obtain ⟨mtx, -, heq⟩ := Option.map_eq_some_iff.mp h
    cases heq
    rfl
  | decided activate =>
    simp only [advanceTask, Option.ite_none_right_eq_some, Option.some_inj, Prod.mk.injEq] at h
    obtain ⟨-, -, rfl⟩ := h
    rfl
  | monitoring activate =>
    cases h
    exact EpicsServiceManager.handlerBroadcaster_monitorChannel _
  | finished => cases h
  | _ =>
    cases h
    rfl

/-- A task of another channel. -/
theorem advanceTask_of_ne (h : advanceTask platform i command failure s point = some (point', s'))
    (hne : command.channelName ≠ c) :
    s'.topics c = s.topics c ∧
      (c ∈ s'.state.manager.channelMap ↔ c ∈ s.state.manager.channelMap) := by
  cases point with
  | queued =>
    cases h
    exact ⟨ChannelTopicsMap.topics_lookup _ _, Iff.rfl⟩
  | absent | present itr =>
    obtain ⟨mtx, -, heq⟩ := Option.map_eq_some_iff.mp h
    cases heq
    exact ⟨rfl, Iff.rfl⟩
  | pushing | erasing itr =>
    cases h
    simp only [Shared.topics_record, Shared.topics_setTopics, if_neg hne]
    exact ⟨rfl, Iff.rfl⟩
  | updated =>
    cases h
    exact ⟨rfl, Iff.rfl⟩
  | decided activate =>
    simp only [advanceTask, Option.ite_none_right_eq_some, Option.some_inj, Prod.mk.injEq] at h
    obtain ⟨-, -, rfl⟩ := h
    exact ⟨rfl, Iff.rfl⟩
  | monitoring activate =>
    cases h
    refine ⟨rfl, ?_⟩
    rw [Std.ExtTreeMap.mem_iff_isSome_getElem?, Std.ExtTreeMap.mem_iff_isSome_getElem?]
    exact iff_of_eq (congrArg (fun ch : Option EpicsChannel ↦ ch.isSome = true)
      (EpicsServiceManager.getElem?_monitorChannel_of_ne hne activate))
  | finished => cases h

/-- What a step of an activation does that does not fail. -/
structure Adds (command : AquireCommand) (point point' : TaskPoint) (s s' : Shared) : Prop where
  adds : adds point' = true
  listed : listed point' = true → command.destinationTopic ∈ s'.topics command.channelName
  topics : (s'.topics command.channelName = s.topics command.channelName ∧
      (Threads.listed point' = Threads.listed point ∨ Threads.listed point' = true ∧
        command.destinationTopic ∈ s.topics command.channelName)) ∨
    (point = .pushing ∧ point' = .updated ∧
      s'.topics command.channelName = s.topics command.channelName ++ [command.destinationTopic])
  channel : command.channelName ∈ s.state.manager.channelMap →
    command.channelName ∈ s'.state.manager.channelMap
  finished : point' = .finished → command.channelName ∈ s'.state.manager.channelMap

theorem adds_of_advanceTask
    (h : advanceTask platform i command none s point = some (point', s'))
    (hactivate : command.activate = true) (hadds : Threads.adds point = true)
    (hlisted : Threads.listed point = true →
      command.destinationTopic ∈ s.topics command.channelName) :
    Adds command point point' s s' := by
  cases point with
  | queued =>
    rw [advanceTask_queued, Option.some_inj, Prod.mk.injEq, if_pos hactivate] at h
    obtain ⟨rfl, rfl⟩ := h
    have htopics : ∀ log, Shared.topics { s with
        state := { s.state with
          channelTopicsMap := s.state.channelTopicsMap.lookup command.channelName }
        log := log } command.channelName = s.topics command.channelName := fun log ↦
      ChannelTopicsMap.topics_lookup _ _
    split
    · rename_i hmem
      exact ⟨rfl, fun _ ↦ (htopics _).symm ▸ hmem, Or.inl ⟨htopics _, Or.inr ⟨rfl, hmem⟩⟩, id,
        nofun⟩
    · exact ⟨rfl, nofun, Or.inl ⟨htopics _, Or.inl rfl⟩, id, nofun⟩
  | absent =>
    obtain ⟨mtx, -, heq⟩ := Option.map_eq_some_iff.mp h
    cases heq
    exact ⟨rfl, nofun, Or.inl ⟨rfl, Or.inl rfl⟩, id, nofun⟩
  | pushing =>
    cases h
    have htopics : ∀ change events, Shared.topics (Shared.record events (Shared.setTopics
        command.channelName (s.topics command.channelName ++ [command.destinationTopic]) change
        { s with channelMapMtx := s.channelMapMtx.unlock })) command.channelName =
        s.topics command.channelName ++ [command.destinationTopic] := fun change events ↦ by
      rw [Shared.topics_record, Shared.topics_setTopics, if_pos rfl]
    exact ⟨rfl, fun _ ↦ (htopics _ _).symm ▸ List.mem_append_right _ (List.mem_singleton_self _),
      Or.inr ⟨rfl, rfl, htopics _ _⟩, id, nofun⟩
  | updated =>
    cases h
    refine ⟨?_, hlisted, Or.inl ⟨rfl, Or.inl rfl⟩, id, nofun⟩
    rw [Threads.adds, ChannelTopicsMap.needed_iff]
    exact List.ne_nil_of_mem (hlisted rfl)
  | decided activate =>
    obtain ⟨-, heq⟩ := Option.ite_none_right_eq_some.mp h
    cases heq
    exact ⟨hadds, hlisted, Or.inl ⟨rfl, Or.inl rfl⟩, id, TaskPoint.noConfusion⟩
  | monitoring activate =>
    obtain rfl : activate = true := hadds
    cases h
    have hmem : command.channelName ∈
        (s.state.manager.monitorChannel none command.channelName true).1.channelMap := by
      rw [Std.ExtTreeMap.mem_iff_isSome_getElem?, EpicsServiceManager.getElem?_monitorChannel,
        if_pos rfl, if_pos rfl, Option.isSome_or, Option.isSome_some, Bool.or_true]
    exact ⟨rfl, hlisted, Or.inl ⟨rfl, Or.inl rfl⟩, fun _ ↦ hmem, fun _ ↦ hmem⟩
  | finished => cases h
  | _ => cases hadds

/-! ## The task among the others -/

/-- Task `i` is the one that activates the topic `t` of the channel `c`, and the others activate
other topics of the channel, or are for other channels. -/
structure Activating (c t : String) (i : ℕ) (σ : Threads) : Prop where
  own : ∃ command point, σ.tasks[i]? = some (command, point) ∧ command.channelName = c
  tasks : ∀ j command point, σ.tasks[j]? = some (command, point) → command.channelName = c →
    command.activate = true ∧ (command.destinationTopic = t ↔ j = i) ∧ adds point = true ∧
      (listed point = true → command.destinationTopic ∈ σ.shared.topics c)
  count : ∀ command point, σ.tasks[i]? = some (command, point) →
    (σ.shared.topics c).count t = if listed point then 1 else 0
  channel : ∀ command, σ.tasks[i]? = some (command, .finished) →
    c ∈ σ.shared.state.manager.channelMap

/-- The worker is registered once, and its handler is called once in a broadcast. -/
def Registered (worker : ℕ) (σ : Threads) : Prop :=
  σ.shared.state.manager.handlerBroadcaster.targets.count worker = 1 ∧ Turn worker σ.scan

theorem Registered.step (hσ : σ.Registered platform.worker) (h : step platform σ a = some τ)
    (halive : ∀ alive, a = .scheduler alive → alive platform.worker = true) :
    τ.Registered platform.worker := by
  cases a with
  | task i failure =>
    obtain ⟨command, point, point', s, -, hadv, rfl⟩ := step_task_eq_some.mp h
    refine ⟨?_, hσ.2⟩
    rw [handlerBroadcaster_advanceTask hadv]
    exact hσ.1
  | scheduler alive =>
    obtain ⟨scan, s, hadv, rfl⟩ := step_scheduler_eq_some.mp h
    exact registered_advanceScan hadv (halive alive rfl) hσ.1 hσ.2
  | arrive channelName mon =>
    cases h
    exact hσ

/-- Where neither the tasks nor the topics of the channel change, the activation goes on. -/
theorem Activating.congr (hσ : σ.Activating c t i) (htasks : τ.tasks = σ.tasks)
    (htopics : τ.shared.topics c = σ.shared.topics c)
    (hchannel : c ∈ σ.shared.state.manager.channelMap → c ∈ τ.shared.state.manager.channelMap) :
    τ.Activating c t i := by
  obtain ⟨hown, htask, hcount, hmem⟩ := hσ
  rw [← htasks] at hown htask hcount hmem
  rw [← htopics] at htask hcount
  exact ⟨hown, htask, hcount, fun command hfinished ↦ hchannel (hmem command hfinished)⟩

theorem Activating.task (hσ : σ.Activating c t i)
    (h : step platform σ (.task j none) = some τ) : τ.Activating c t i := by
  obtain ⟨command, point, point', s, htask, hadv, rfl⟩ := step_task_eq_some.mp h
  have hself : (σ.tasks.set j (command, point'))[j]? = some (command, point') :=
    List.getElem?_set_self (List.getElem?_eq_some_iff.mp htask).1
  by_cases hc : command.channelName = c
  · subst hc
    obtain ⟨hactivate, htopic, hadds, hlisted⟩ := hσ.tasks j command point htask rfl
    have hstep := adds_of_advanceTask hadv hactivate hadds hlisted
    have hgrows : ∀ topic ∈ σ.shared.topics command.channelName,
        topic ∈ s.topics command.channelName := by
      intro topic hmem
      rcases hstep.topics with ⟨hsame, -⟩ | ⟨-, -, hpush⟩
      · rwa [hsame]
      · rw [hpush]
        exact List.mem_append_left _ hmem
    refine ⟨?_, fun k command' point'' hk hc ↦ ?_, fun command' point'' hi ↦ ?_,
      fun command' hi ↦ ?_⟩
    · obtain ⟨command', point'', hi, hc⟩ := hσ.own
      by_cases hij : j = i
      · subst hij
        exact ⟨command, point', hself, rfl⟩
      · exact ⟨command', point'', by rwa [List.getElem?_set_ne hij], hc⟩
    · by_cases hjk : j = k
      · subst hjk
        cases hself.symm.trans hk
        exact ⟨hactivate, htopic, hstep.adds, hstep.listed⟩
      · rw [List.getElem?_set_ne hjk] at hk
        obtain ⟨hactivate', htopic', hadds', hlisted'⟩ := hσ.tasks k command' point'' hk hc
        exact ⟨hactivate', htopic', hadds', fun hl ↦ hgrows _ (hlisted' hl)⟩
    · by_cases hij : j = i
      · subst hij
        cases hself.symm.trans hi
        have hcount := hσ.count command point htask
        have ht : command.destinationTopic = t := htopic.mpr rfl
        rcases hstep.topics with ⟨hsame, hsamelisted | ⟨hlisted', hmem⟩⟩ | ⟨rfl, rfl, hpush⟩
        · rw [hsame, hcount, hsamelisted]
        · -- the topic is in the list, so the task has been listed before
          rw [hsame, hlisted', hcount]
          have hpos := List.count_pos_iff.mpr (ht ▸ hmem)
          rw [hcount] at hpos
          cases hl : listed point with
          | true => rfl
          | false =>
            rw [hl] at hpos
            cases hpos
        · rw [hpush, List.count_append, hcount, ht]
          simp [listed]
      · rw [List.getElem?_set_ne hij] at hi
        rw [← hσ.count command' point'' hi]
        have hne : command.destinationTopic ≠ t := fun ht ↦ hij (htopic.mp ht)
        rcases hstep.topics with ⟨hsame, -⟩ | ⟨-, -, hpush⟩
        · rw [hsame]
        · rw [hpush, List.count_append, List.count_singleton, if_neg (by simpa using hne),
            Nat.add_zero]
    · by_cases hij : j = i
      · subst hij
        cases hself.symm.trans hi
        exact hstep.finished rfl
      · rw [List.getElem?_set_ne hij] at hi
        exact hstep.channel (hσ.channel command' hi)
  · -- a task of another channel is none of those that the invariant is about
    obtain ⟨htopics, hchannel⟩ := advanceTask_of_ne hadv hc
    have hij : j ≠ i := by
      rintro rfl
      obtain ⟨command', point'', hi, hc'⟩ := hσ.own
      cases htask.symm.trans hi
      exact hc hc'
    refine ⟨?_, fun k command' point'' hk hc' ↦ ?_, fun command' point'' hi ↦ ?_,
      fun command' hi ↦ ?_⟩
    · rw [List.getElem?_set_ne hij]
      exact hσ.own
    · rw [htopics]
      by_cases hjk : j = k
      · subst hjk
        cases hself.symm.trans hk
        exact absurd hc' hc
      · rw [List.getElem?_set_ne hjk] at hk
        exact hσ.tasks k command' point'' hk hc'
    · rw [htopics]
      rw [List.getElem?_set_ne hij] at hi
      exact hσ.count command' point'' hi
    · rw [List.getElem?_set_ne hij] at hi
      exact hchannel.mpr (hσ.channel command' hi)

theorem Activating.step (hσ : σ.Activating c t i) (h : step platform σ a = some τ)
    (hok : ∀ j failure, a = .task j failure → failure = none) : τ.Activating c t i := by
  cases a with
  | task j failure =>
    obtain rfl := hok j failure rfl
    exact hσ.task h
  | scheduler alive =>
    obtain ⟨scan, s, hadv, rfl⟩ := step_scheduler_eq_some.mp h
    obtain ⟨events, heffect⟩ := exists_scanEffect hadv
    exact hσ.congr rfl (congrFun heffect.topics c) (heffect.mem_channelMap c).mpr
  | arrive channelName mon =>
    cases h
    exact hσ.congr rfl rfl (EpicsServiceManager.mem_withMon _ _ _ c).mpr

/-! ## When it is finished -/

/-- The commands have one activation of the topic, and none of them deactivates a topic of its
channel. -/
def OnlyActivation (commands : List AquireCommand) (i : ℕ) (command : AquireCommand) : Prop :=
  ∀ j other, commands[j]? = some other → other.channelName = command.channelName →
    other.activate = true ∧ (other.destinationTopic = command.destinationTopic → j = i)

theorem getElem?_tasks_start (manager : EpicsServiceManager) (commands : List AquireCommand)
    (j : ℕ) : (start manager commands).tasks[j]? = (commands[j]?).map fun command ↦
      (command, .queued) :=
  List.getElem?_map

theorem activating_start (hi : commands[i]? = some command)
    (honly : OnlyActivation commands i command) :
    (start manager commands).Activating command.channelName command.destinationTopic i := by
  refine ⟨⟨command, .queued, ?_, rfl⟩, fun j other point hj hc ↦ ?_, fun other point hj ↦ ?_,
    fun other hj ↦ ?_⟩
  · rw [getElem?_tasks_start, hi]
    rfl
  · rw [getElem?_tasks_start] at hj
    obtain ⟨other', hother, heq⟩ := Option.map_eq_some_iff.mp hj
    cases heq
    obtain ⟨hactivate, htopic⟩ := honly j other hother hc
    refine ⟨hactivate, ⟨htopic, ?_⟩, rfl, nofun⟩
    rintro rfl
    rw [Option.some_inj.mp (hother.symm.trans hi)]
  · rw [getElem?_tasks_start] at hj
    obtain ⟨other', -, heq⟩ := Option.map_eq_some_iff.mp hj
    cases heq
    exact List.count_nil
  · rw [getElem?_tasks_start] at hj
    obtain ⟨other', -, heq⟩ := Option.map_eq_some_iff.mp hj
    cases heq

/-- **When the task of an activation is finished, the topic is subscribed once and the channel is
monitored**, and the tasks of the other commands leave it at that. -/
theorem steady_of_run (h : run (step platform) (start manager commands) sched = some σ)
    (hi : commands[i]? = some command) (honly : OnlyActivation commands i command)
    (hworker : manager.handlerBroadcaster.targets.count platform.worker = 1)
    (halive : ∀ alive, .scheduler alive ∈ sched → alive platform.worker = true)
    (hok : ∀ j failure, .task j failure ∈ sched → failure = none)
    (hfinished : σ.point? i = some .finished) :
    σ.Steady platform.worker command.channelName command.destinationTopic (· ≠ i) := by
  have hinv : σ.Activating command.channelName command.destinationTopic i ∧
      σ.Registered platform.worker := by
    refine run_invariant_of_mem
      (P := fun s ↦ s.Activating command.channelName command.destinationTopic i ∧
        s.Registered platform.worker)
      (fun a ha s s' hstep hs ↦ ⟨hs.1.step hstep ?_, hs.2.step hstep ?_⟩) h
      ⟨activating_start hi honly, hworker, trivial⟩
    · rintro j failure rfl
      exact hok j failure ha
    · rintro alive rfl
      exact halive alive ha
  obtain ⟨hactivating, hregistered, hturn⟩ := hinv
  obtain ⟨⟨command', point⟩, htask, rfl⟩ := Option.map_eq_some_iff.mp hfinished
  refine ⟨hactivating.count command' .finished htask, hactivating.channel command' htask,
    hregistered, hturn, fun j hj other point' hother hc ↦ ?_⟩
  obtain ⟨hactivate, htopic, hadds, -⟩ := hactivating.tasks j other point' hother hc
  exact ⟨hactivate, fun ht ↦ hj (htopic.mp ht), hadds⟩

/-- A task that is finished makes no more steps. -/
theorem ne_of_receives (hrun : Receives platform c σ sched updates τ)
    (hfinished : σ.point? i = some .finished) :
    ∀ j failure, .task j failure ∈ sched → j ≠ i := by
  induction hrun with
  | nil σ => exact fun j failure hmem ↦ absurd hmem List.not_mem_nil
  | task hstep hrest ih =>
    rename_i σ ρ τ k failure sched updates
    obtain ⟨command, point, point', s, htask, hadv, rfl⟩ := step_task_eq_some.mp hstep
    have hne : k ≠ i := by
      rintro rfl
      rw [point?, htask, Option.map_some, Option.some_inj] at hfinished
      dsimp only at hfinished
      rw [hfinished] at hadv
      cases hadv
    have hfinished' : point? ⟨σ.tasks.set k (_, point'), σ.scan, s⟩ i = _ :=
      point?_set htask σ.scan s i
    rw [if_neg hne, hfinished] at hfinished'
    rintro j failure' hmem
    rcases List.mem_cons.mp hmem with heq | hmem
    · cases heq
      exact hne
    · exact ih hfinished' j failure' hmem
  | scheduler halive hstep hrest ih =>
    obtain ⟨scan, s, -, rfl⟩ := step_scheduler_eq_some.mp hstep
    intro j failure hmem
    exact ih hfinished j failure ((List.mem_cons.mp hmem).resolve_left ThreadStep.noConfusion)
  | arrive hmon hstep hrest ih =>
    cases hstep
    intro j failure hmem
    exact ih hfinished j failure ((List.mem_cons.mp hmem).resolve_left ThreadStep.noConfusion)
  | other hne hstep hrest ih =>
    cases hstep
    intro j failure hmem
    exact ih hfinished j failure ((List.mem_cons.mp hmem).resolve_left ThreadStep.noConfusion)

/-- **From the end of the activation on, every update that arrives is published to the topic, or on
its way to it, once and in order**, whatever the threads did before and do afterwards; and where
none is on its way, all of them are published. -/
theorem values_of_activation (h : run (step platform) (start manager commands) sched = some σ)
    (hi : commands[i]? = some command) (honly : OnlyActivation commands i command)
    (hworker : manager.handlerBroadcaster.targets.count platform.worker = 1)
    (halive : ∀ alive, .scheduler alive ∈ sched → alive platform.worker = true)
    (hok : ∀ j failure, .task j failure ∈ sched → failure = none)
    (hfinished : σ.point? i = some .finished)
    (hrun : Receives platform command.channelName σ sched' updates τ) :
    values platform.worker command.channelName command.destinationTopic τ =
        values platform.worker command.channelName command.destinationTopic σ ++
          updates.map PVStructure.renderValue ∧
      (τ.scan.drained platform.worker command.channelName = [] →
        τ.shared.queued command.channelName = [] →
        τ.shared.log.filterMap
            (ThreadEvent.valueFor? command.channelName command.destinationTopic) =
          values platform.worker command.channelName command.destinationTopic σ ++
            updates.map PVStructure.renderValue) := by
  have hvalues := (values_of_run (steady_of_run h hi honly hworker halive hok hfinished)
    (ne_of_receives hrun hfinished) hrun).2
  refine ⟨hvalues, fun hdrained hqueued ↦ ?_⟩
  rw [← hvalues, values, hdrained, hqueued, List.append_nil, List.map_nil, List.append_nil]

/-- A second topic is on its way when the first one is activated, and is added after an update has
arrived.  At the end of the scan all three updates are published. -/
theorem values_of_activation_ramp :
    ∃ σ τ, run (step ⟨fun _ ↦ true, fun vec _ ↦ vec, true, fun _ ↦ 0, 0⟩)
        (start rampManager [⟨"pva", "channel:ramp:ramp", true, "topic_a"⟩,
          ⟨"pva", "channel:ramp:ramp", true, "topic_b"⟩])
        (.task 1 none :: List.replicate 6 (.task 0 none)) = some σ ∧
      Receives ⟨fun _ ↦ true, fun vec _ ↦ vec, true, fun _ ↦ 0, 0⟩ "channel:ramp:ramp" σ
        [.scheduler fun _ ↦ true, .task 1 none,
          .arrive "channel:ramp:ramp"
            { pending := some .data, queue := [rampUpdate "1", rampUpdate "2", rampUpdate "3"] },
          .task 1 none, .scheduler fun _ ↦ true, .scheduler fun _ ↦ true,
          .scheduler fun _ ↦ true, .scheduler fun _ ↦ true]
        [rampUpdate "3"] τ ∧
      τ.shared.log.filterMap (ThreadEvent.valueFor? "channel:ramp:ramp" "topic_a") =
        ["1", "2", "3"] := by
  obtain ⟨σ, h, hfinished, hvalues, τ, hrun, hdrained, hqueued⟩ : ∃ σ,
      run (step ⟨fun _ ↦ true, fun vec _ ↦ vec, true, fun _ ↦ 0, 0⟩)
        (start rampManager [⟨"pva", "channel:ramp:ramp", true, "topic_a"⟩,
          ⟨"pva", "channel:ramp:ramp", true, "topic_b"⟩])
        (.task 1 none :: List.replicate 6 (.task 0 none)) = some σ ∧
      σ.point? 0 = some .finished ∧
      values 0 "channel:ramp:ramp" "topic_a" σ = ["1", "2"] ∧
      ∃ τ, Receives ⟨fun _ ↦ true, fun vec _ ↦ vec, true, fun _ ↦ 0, 0⟩ "channel:ramp:ramp" σ
        [.scheduler fun _ ↦ true, .task 1 none,
          .arrive "channel:ramp:ramp"
            { pending := some .data, queue := [rampUpdate "1", rampUpdate "2", rampUpdate "3"] },
          .task 1 none, .scheduler fun _ ↦ true, .scheduler fun _ ↦ true,
          .scheduler fun _ ↦ true, .scheduler fun _ ↦ true]
        [rampUpdate "3"] τ ∧
      τ.scan.drained 0 "channel:ramp:ramp" = [] ∧ τ.shared.queued "channel:ramp:ramp" = [] :=
    ⟨_, rfl, rfl, by decide, _, .scheduler rfl rfl <| .task rfl <|
      .arrive (show _ = _ ++ [rampUpdate "3"] by decide) rfl <| .task rfl <|
      .scheduler rfl rfl <| .scheduler rfl rfl <| .scheduler rfl rfl <| .scheduler rfl rfl <|
      .nil _, rfl, rfl⟩
  refine ⟨σ, τ, h, hrun, ?_⟩
  have honly : OnlyActivation [⟨"pva", "channel:ramp:ramp", true, "topic_a"⟩,
      ⟨"pva", "channel:ramp:ramp", true, "topic_b"⟩] 0
      ⟨"pva", "channel:ramp:ramp", true, "topic_a"⟩ := by
    rintro (_ | _ | j) other hother - <;> cases hother <;> exact ⟨rfl, by decide⟩
  refine ((values_of_activation h rfl honly (by decide) (by simp) ?_ hfinished hrun).2
    hdrained hqueued).trans ?_
  · rintro j failure hmem
    have hnone : j = 1 ∧ failure = none ∨ j = 0 ∧ failure = none := by simpa using hmem
    exact hnone.elim And.right And.right
  · rw [hvalues]
    rfl

end Threads

end Ekg
