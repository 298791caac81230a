import Ekg.Lib.Steps
import Ekg.Node.Serial

/-!
# Commands executed by several threads

The pool runs `acquireManagement` on several threads.  One task is three steps: it updates the
topic list, it reads whether the list has a topic, and it calls `monitorChannel` with the answer.
The mutex of the worker covers the first step at most, so that between the second and the third
another task may have changed the list, and may have called `monitorChannel` itself.

The topic lists do not mind: they end up as if the commands had been executed one after the other
in the order of their first steps (`topics_run`).  A channel does: it is monitored as the task says
that calls `monitorChannel` last, and that task says what it read.  `agrees_iff` is the exact
condition under which the two agree in the end.
-/

set_option autoImplicit false

namespace Ekg

open LastWrite Steps

/-- How far a task has got. -/
inductive Phase
  | queued
  | updated
  | decided (activate : Bool)
  | finished
  deriving DecidableEq, Repr

/-- The number of steps that the task has made. -/
def Phase.steps : Phase → ℕ
  | .queued => 0
  | .updated => 1
  | .decided _ => 2
  | .finished => 3

/-- The tasks of the pool, each with its command, and what they work on. -/
structure Concurrent where
  tasks : List (AquireCommand × Phase)
  state : AcquireState := {}

namespace Concurrent

/-- The pool before any of the tasks has started. -/
def start (commands : List AquireCommand) : Concurrent where
  tasks := commands.map fun command ↦ (command, .queued)

/-- The next step of a task, if it is not finished: the three parts of `acquireManagement`. -/
def advance (command : AquireCommand) (s : AcquireState) : Phase → Option (Phase × AcquireState)
  | .queued =>
    some (.updated, { s with channelTopicsMap := s.channelTopicsMap.update command })
  -- `channel_map_mtx` is free again, both here and below
  | .updated => some (.decided (s.channelTopicsMap.needed command.channelName), s)
  | .decided activate =>
    some (.finished,
      { s with manager := (s.manager.monitorChannel none command.channelName activate).1 })
  | .finished => none

/-- Task `i` makes a step. -/
def stepTask (σ : Concurrent) (i : ℕ) : Option Concurrent :=
  (σ.tasks[i]?).bind fun task ↦
    (advance task.1 σ.state task.2).map fun r ↦
      { tasks := σ.tasks.set i (task.1, r.1), state := r.2 }

/-- Every task has finished. -/
def Finished (σ : Concurrent) : Prop := ∀ task ∈ σ.tasks, task.2 = .finished

instance : DecidablePred Finished :=
  fun σ ↦ inferInstanceAs (Decidable (∀ task ∈ σ.tasks, task.2 = .finished))

/-- The service manager monitors exactly the channels that have a topic. -/
def Agrees (σ : Concurrent) : Prop := ∀ c, σ.state.Monitored c ↔ σ.state.topics c ≠ []

variable {σ τ : Concurrent} {i j : ℕ} {command : AquireCommand} {c : String}

/-! ## One step -/

theorem stepTask_eq_some :
    stepTask σ i = some τ ↔ ∃ command phase phase' s, σ.tasks[i]? = some (command, phase) ∧
      advance command σ.state phase = some (phase', s) ∧
      τ = { tasks := σ.tasks.set i (command, phase'), state := s } := by
  simp only [stepTask, Option.bind_eq_some_iff, Option.map_eq_some_iff, Prod.exists]
  constructor
  · rintro ⟨command, phase, htask, phase', s, hadv, rfl⟩
    exact ⟨command, phase, phase', s, htask, hadv, rfl⟩
  · rintro ⟨command, phase, phase', s, htask, hadv, rfl⟩
    exact ⟨command, phase, htask, phase', s, hadv, rfl⟩

theorem steps_advance {s s' : AcquireState} {phase phase' : Phase}
    (h : advance command s phase = some (phase', s')) : phase'.steps = phase.steps + 1 := by
  cases phase <;> cases h <;> rfl

/-- Only the first step of a task touches a topic list. -/
theorem topics_advance {s s' : AcquireState} {phase phase' : Phase}
    (h : advance command s phase = some (phase', s')) (c : String) :
    s'.topics c =
      if phase.steps = 0 ∧ command.channelName = c then
        ChannelTopicsMap.updated command (s.topics c)
      else s.topics c := by
  cases phase <;> cases h
  case queued =>
    refine (ChannelTopicsMap.topics_update command s.channelTopicsMap c).trans ?_
    simp [Phase.steps, AcquireState.topics]
  all_goals simp [Phase.steps, AcquireState.topics]

/-- A step of a task on another channel leaves a channel alone. -/
theorem advance_of_ne {s s' : AcquireState} {phase phase' : Phase}
    (h : advance command s phase = some (phase', s')) (hc : command.channelName ≠ c) :
    s'.topics c = s.topics c ∧ (s'.Monitored c ↔ s.Monitored c) := by
  refine ⟨by rw [topics_advance h, if_neg fun hq ↦ hc hq.2], ?_⟩
  cases phase <;> cases h
  case decided activate =>
    rw [AcquireState.Monitored, EpicsServiceManager.mem_monitorChannel, if_neg hc]
    rfl
  all_goals rfl

/-- Three steps of one task in a row are `acquireManagement` without interruption. -/
theorem run_task (h : σ.tasks[i]? = some (command, .queued)) :
    run stepTask σ [i, i, i] =
      some { tasks := σ.tasks.set i (command, .finished), state := acquire σ.state command } := by
  have hi : i < σ.tasks.length := (List.getElem?_eq_some_iff.mp h).1
  have hstep : ∀ {ρ : Concurrent} {phase phase' : Phase} {s : AcquireState},
      ρ.tasks = σ.tasks.set i (command, phase) → advance command ρ.state phase = some (phase', s) →
      stepTask ρ i = some { tasks := σ.tasks.set i (command, phase'), state := s } := by
    intro ρ phase phase' s htasks hadv
    refine stepTask_eq_some.mpr ⟨command, phase, phase', s, ?_, hadv, ?_⟩
    · rw [htasks, List.getElem?_set_self hi]
    · rw [htasks, List.set_set]
  have hself : σ.tasks = σ.tasks.set i (command, .queued) := by
    rw [← (List.getElem?_eq_some_iff.mp h).2, List.set_getElem_self]
  rw [run_cons, hstep hself rfl, Option.bind_some, run_cons, hstep rfl rfl, Option.bind_some,
    run_cons, hstep rfl rfl, Option.bind_some, run_nil]
  rfl

/-! ## Runs -/

/-- The commands of a schedule, in the order of the first steps of their tasks. -/
def updatesOf (commands : List AquireCommand) (sched : List ℕ) : List AquireCommand :=
  sched.eraseDups.filterMap fun i ↦ commands[i]?

theorem updatesOf_concat_of_mem {commands : List AquireCommand} {sched : List ℕ} (h : i ∈ sched) :
    updatesOf commands (sched ++ [i]) = updatesOf commands sched := by
  simp [updatesOf, List.eraseDups_append, List.removeAll, h]

theorem updatesOf_concat_of_not_mem {commands : List AquireCommand} {sched : List ℕ}
    (h : i ∉ sched) (hi : commands[i]? = some command) :
    updatesOf commands (sched ++ [i]) = updatesOf commands sched ++ [command] := by
  simp [updatesOf, List.eraseDups_append, List.eraseDups_cons, List.removeAll, h, hi]

variable {commands : List AquireCommand} {sched : List ℕ}

/-- A task has made as many steps as the schedule gives it. -/
theorem tasks_run (h : run stepTask (start commands) sched = some σ) (i : ℕ) :
    (σ.tasks[i]?).map (fun task ↦ (task.1, task.2.steps)) =
      (commands[i]?).map fun command ↦ (command, sched.count i) := by
  refine run_induction
    (P := fun sched σ ↦ (σ.tasks[i]?).map (fun task ↦ (task.1, task.2.steps)) =
      (commands[i]?).map fun command ↦ (command, sched.count i))
    ?_ (fun sched j ρ σ _ hi hstep ↦ ?_) h
  · rw [start, List.getElem?_map, Option.map_map]
    rfl
  · obtain ⟨command, phase, phase', s, htask, hadv, rfl⟩ := stepTask_eq_some.mp hstep
    rw [List.count_append, List.getElem?_set]
    by_cases hij : j = i
    · subst hij
      rw [htask] at hi
      rw [if_pos rfl, if_pos (List.getElem?_eq_some_iff.mp htask).1]
      cases hcmd : commands[j]? with
      | none => simp [hcmd] at hi
      | some x =>
        simp only [hcmd, Option.map_some, Option.some_inj, Prod.mk.injEq] at hi ⊢
        refine ⟨hi.1, ?_⟩
        rw [steps_advance hadv, hi.2]
        simp
    · rw [if_neg hij, hi]
      simp [hij]

/-- **The topic lists do not see the interleaving**: they are those of the commands executed one
after the other, in the order of their updates. -/
theorem topics_run (h : run stepTask (start commands) sched = some σ) (c : String) :
    σ.state.topics c = (acquireAll {} (updatesOf commands sched)).topics c := by
  refine run_induction
    (P := fun sched σ ↦ σ.state.topics c = (acquireAll {} (updatesOf commands sched)).topics c)
    rfl (fun sched j ρ σ hρ htopics hstep ↦ ?_) h
  obtain ⟨command, phase, phase', s, htask, hadv, rfl⟩ := stepTask_eq_some.mp hstep
  have hj := tasks_run hρ j
  rw [htask] at hj
  cases hcmd : commands[j]? with
  | none => simp [hcmd] at hj
  | some x =>
    simp only [hcmd, Option.map_some, Option.some_inj, Prod.mk.injEq] at hj
    obtain ⟨rfl, hsteps⟩ := hj
    simp only [topics_advance hadv, htopics, hsteps, List.count_eq_zero]
    by_cases hmem : j ∈ sched
    · rw [updatesOf_concat_of_mem hmem, if_neg fun hq ↦ hq.1 hmem]
    · rw [updatesOf_concat_of_not_mem hmem hcmd, acquireAll_concat, AcquireState.topics_acquire]
      simp [hmem]

theorem exists_phase_of_run (h : run stepTask (start commands) sched = some σ)
    (hi : commands[i]? = some command) :
    ∃ phase, σ.tasks[i]? = some (command, phase) ∧ phase.steps = sched.count i := by
  have hi' := tasks_run h i
  rw [hi, Option.map_some, Option.map_eq_some_iff] at hi'
  obtain ⟨⟨x, phase⟩, htask, hx⟩ := hi'
  rw [Prod.mk.injEq] at hx
  obtain ⟨rfl, hsteps⟩ := hx
  exact ⟨phase, htask, hsteps⟩

theorem fst_of_run (h : run stepTask (start commands) sched = some σ)
    {task : AquireCommand × Phase} (hi : σ.tasks[i]? = some task) :
    commands[i]? = some task.1 := by
  have hi' := tasks_run h i
  rw [hi, Option.map_some, eq_comm, Option.map_eq_some_iff] at hi'
  obtain ⟨x, hx, he⟩ := hi'
  rw [Prod.mk.injEq] at he
  rw [hx, he.1]

theorem count_of_finished (h : run stepTask (start commands) sched = some σ) (hfin : σ.Finished)
    (hi : commands[i]? = some command) : sched.count i = 3 := by
  obtain ⟨phase, htask, hsteps⟩ := exists_phase_of_run h hi
  have hphase : phase = .finished := hfin _ (List.mem_of_getElem? htask)
  rw [← hsteps, hphase]
  rfl

/-- A part of a run in which a task makes no step leaves the task as it was. -/
theorem getElem?_run_of_not_mem (h : run stepTask σ sched = some τ) (hi : i ∉ sched) :
    τ.tasks[i]? = σ.tasks[i]? := by
  refine run_invariant_of_mem (P := fun ρ ↦ ρ.tasks[i]? = σ.tasks[i]?) ?_ h rfl
  intro j hj ρ ρ' hstep hρ
  obtain ⟨command, phase, phase', s, -, -, rfl⟩ := stepTask_eq_some.mp hstep
  have hji : j ≠ i := fun hji ↦ hi (hji ▸ hj)
  exact (List.getElem?_set_ne hji).trans hρ

/-- A part of a run in which no task on a channel makes a step leaves the channel as it was. -/
theorem run_of_ne (h : run stepTask σ sched = some τ)
    (hne : ∀ j ∈ sched, ∀ task, σ.tasks[j]? = some task → task.1.channelName ≠ c) :
    τ.state.topics c = σ.state.topics c ∧ (τ.state.Monitored c ↔ σ.state.Monitored c) := by
  have hkeep : (∀ j : ℕ, (τ.tasks[j]?).map Prod.fst = (σ.tasks[j]?).map Prod.fst) ∧
      τ.state.topics c = σ.state.topics c ∧ (τ.state.Monitored c ↔ σ.state.Monitored c) := by
    refine run_invariant_of_mem (P := fun ρ ↦
      (∀ j : ℕ, (ρ.tasks[j]?).map Prod.fst = (σ.tasks[j]?).map Prod.fst) ∧
      ρ.state.topics c = σ.state.topics c ∧ (ρ.state.Monitored c ↔ σ.state.Monitored c)) ?_ h
      ⟨fun _ ↦ rfl, rfl, Iff.rfl⟩
    rintro k hk ρ ρ' hstep ⟨hfst, htopics, hmon⟩
    obtain ⟨command, phase, phase', s, htask, hadv, rfl⟩ := stepTask_eq_some.mp hstep
    obtain ⟨task, htask', hname⟩ := Option.map_eq_some_iff.mp
      ((hfst k).symm.trans (congrArg (Option.map Prod.fst) htask))
    obtain ⟨htopics', hmon'⟩ := advance_of_ne hadv (hname ▸ hne k hk task htask')
    refine ⟨fun j ↦ ?_, htopics'.trans htopics, hmon'.trans hmon⟩
    rw [← hfst j, List.getElem?_set]
    split
    · rename_i hkj
      rw [← hkj, htask, if_pos (List.getElem?_eq_some_iff.mp htask).1]
      rfl
    · rfl
  exact hkeep.2

/-! ## The last call -/

/-- The channel of a task. -/
def channelOf (commands : List AquireCommand) (i : ℕ) : Option String :=
  (commands[i]?).map AquireCommand.channelName

variable {a b d : List ℕ}

/-- The task that calls `monitorChannel` last decides by what it read. -/
theorem monitored_of_last_call
    (h : run stepTask (start commands) (a ++ i :: (b ++ i :: d)) = some τ)
    (hi : commands[i]? = some command) (ha : a.count i = 1) (hb : i ∉ b)
    (hd : ∀ j ∈ d, channelOf commands j ≠ some command.channelName) :
    τ.state.Monitored command.channelName ↔
      (acquireAll {} (updatesOf commands a)).topics command.channelName ≠ [] := by
  obtain ⟨σ₁, h₁, hrest⟩ := run_append_eq_some.mp h
  obtain ⟨σ₂, hread, hrest⟩ := run_cons_eq_some.mp hrest
  obtain ⟨σ₃, h₃, hrest⟩ := run_append_eq_some.mp hrest
  obtain ⟨σ₄, hcall, h₅⟩ := run_cons_eq_some.mp hrest
  -- the step after `a` is the read
  obtain ⟨phase, htask₁, hsteps⟩ := exists_phase_of_run h₁ hi
  have hphase : phase = .updated := by
    rw [ha] at hsteps
    cases phase <;> first | rfl | cases hsteps
  subst hphase
  obtain ⟨x, ph, ph', s, htask, hadv, rfl⟩ := stepTask_eq_some.mp hread
  cases htask₁.symm.trans htask
  cases hadv
  -- the answer waits while the tasks of `b` run, and the step after `b` is the call
  have htask₃ := getElem?_run_of_not_mem h₃ hb
  rw [List.getElem?_set_self (List.getElem?_eq_some_iff.mp htask₁).1] at htask₃
  obtain ⟨x, ph, ph', s, htask, hadv, rfl⟩ := stepTask_eq_some.mp hcall
  cases htask₃.symm.trans htask
  cases hadv
  have hlast : run stepTask (start commands) (a ++ i :: (b ++ [i])) = some _ :=
    run_append_eq_some.mpr ⟨σ₁, h₁, run_cons_eq_some.mpr ⟨_, hread,
      run_concat_eq_some.mpr ⟨σ₃, h₃, hcall⟩⟩⟩
  have hframe := run_of_ne (c := command.channelName) h₅ fun j hj task htask hname ↦
    hd j hj (by rw [channelOf, fst_of_run hlast htask, Option.map_some, hname])
  rw [hframe.2, AcquireState.Monitored, EpicsServiceManager.mem_monitorChannel, if_pos rfl,
    ChannelTopicsMap.needed_iff]
  exact not_congr (iff_of_eq (congrArg (· = []) (topics_run h₁ command.channelName)))

/-- In a complete run, every channel with a task has a last call, and the call has its read. -/
theorem exists_last_call (h : run stepTask (start commands) sched = some τ) (hfin : τ.Finished)
    {x : AquireCommand} (hx : x ∈ commands) :
    ∃ a i b d command, sched = a ++ i :: (b ++ i :: d) ∧ commands[i]? = some command ∧
      command.channelName = x.channelName ∧ a.count i = 1 ∧ i ∉ b ∧
      ∀ j ∈ d, channelOf commands j ≠ some x.channelName := by
  obtain ⟨k, hk⟩ := List.mem_iff_getElem?.mp hx
  have hmem : k ∈ sched := by
    rw [← List.count_pos_iff, count_of_finished h hfin hk]
    decide
  -- the last step on the channel, by task `i`
  have hchannel : channelOf commands k = some x.channelName := by
    rw [channelOf, hk, Option.map_some]
  obtain ⟨i, hi⟩ := Option.isSome_iff_exists.mp (lastOn_isSome_of_mem hmem hchannel)
  obtain ⟨p, d, rfl, hkey, hd⟩ := lastOn_eq_some_iff.mp hi
  obtain ⟨command, hcommand, hname⟩ := Option.map_eq_some_iff.mp hkey
  have hid : i ∉ d := fun hid ↦ hd i hid hkey
  have hcount := count_of_finished h hfin hcommand
  rw [List.count_append, List.count_cons_self, List.count_eq_zero.mpr hid] at hcount
  -- and the step of task `i` before it
  have hip : i ∈ p := by
    rw [← List.count_pos_iff]
    omega
  have hself : id i = i := rfl
  obtain ⟨i', hi'⟩ := Option.isSome_iff_exists.mp (lastOn_isSome_of_mem hip hself)
  obtain ⟨a, b, rfl, rfl, hb⟩ := lastOn_eq_some_iff.mp hi'
  have hib : i' ∉ b := fun hib ↦ hb i' hib rfl
  refine ⟨a, i', b, d, command, by simp, hcommand, hname, ?_, hib, hd⟩
  rw [id, List.count_append, List.count_cons_self, List.count_eq_zero.mpr hib] at hcount
  omega

/-- Some topic of the channel has an activation as its last command. -/
def HasTopic (commands : List AquireCommand) (c : String) : Prop :=
  ∃ t, (lastOn AquireCommand.target (c, t) commands).map AquireCommand.activate = some true

theorem topics_acquireAll_ne_nil :
    (acquireAll {} commands).topics c ≠ [] ↔ HasTopic commands c := by
  rw [Ne, List.eq_nil_iff_forall_not_mem, not_forall_not]
  exact exists_congr fun t ↦ mem_topics_acquireAll commands c t

/-- The task that makes the last call on `c` reads the list after the part `a` of the schedule.
The updates that come later leave some topic of `c` active exactly if those of `a` did. -/
def DecidesAsInTheEnd (commands : List AquireCommand) (sched : List ℕ) (c : String) : Prop :=
  ∀ a i b d, sched = a ++ i :: (b ++ i :: d) → channelOf commands i = some c →
    a.count i = 1 → i ∉ b → (∀ j ∈ d, channelOf commands j ≠ some c) →
    (HasTopic (updatesOf commands a) c ↔ HasTopic (updatesOf commands sched) c)

/-- **When the topic lists and the subscriptions agree**: in a run in which every task finishes,
the service manager monitors exactly the channels with topics if and only if, for every channel,
the task that calls `monitorChannel` last read what is also true in the end. -/
theorem agrees_iff (h : run stepTask (start commands) sched = some τ) (hfin : τ.Finished) :
    τ.Agrees ↔ ∀ c, DecidesAsInTheEnd commands sched c := by
  refine forall_congr' fun c ↦ ?_
  rw [topics_run h, topics_acquireAll_ne_nil]
  constructor
  · rintro hagree a i b d rfl hi ha hb hd
    obtain ⟨command, hcommand, rfl⟩ := Option.map_eq_some_iff.mp hi
    rw [← topics_acquireAll_ne_nil, ← monitored_of_last_call h hcommand ha hb hd]
    exact hagree
  · intro hdecides
    by_cases hc : ∃ x ∈ commands, x.channelName = c
    · obtain ⟨x, hx, rfl⟩ := hc
      obtain ⟨a, i, b, d, command, rfl, hcommand, hname, ha, hb, hd⟩ := exists_last_call h hfin hx
      rw [← hdecides a i b d rfl (by rw [channelOf, hcommand, Option.map_some, hname]) ha hb hd,
        ← topics_acquireAll_ne_nil, ← hname]
      exact monitored_of_last_call h hcommand ha hb (hname ▸ hd)
    · -- no task is on the channel: it is as in the beginning
      have hne : ∀ j ∈ sched, ∀ task, (start commands).tasks[j]? = some task →
          task.1.channelName ≠ c := by
        intro j _ task htask hname
        have hnil : run stepTask (start commands) [] = some (start commands) := run_nil
        have htask' := fst_of_run hnil htask
        exact hc ⟨task.1, List.mem_of_getElem? htask', hname⟩
      obtain ⟨htopics, hmon⟩ := run_of_ne h hne
      rw [hmon, ← topics_acquireAll_ne_nil, ← topics_run h, htopics]
      exact serialInv_init.monitored c

/-- Two tasks that do not overlap. -/
theorem agrees_iff_serial :
    ∃ τ, run stepTask (start [⟨"pva", "channel:ramp:ramp", true, "acquire_comad_in"⟩,
        ⟨"pva", "channel:ramp:ramp", false, "acquire_comad_in"⟩]) [0, 0, 0, 1, 1, 1] = some τ ∧
      τ.Finished ∧
      (τ.Agrees ↔ ∀ c, DecidesAsInTheEnd [⟨"pva", "channel:ramp:ramp", true, "acquire_comad_in"⟩,
        ⟨"pva", "channel:ramp:ramp", false, "acquire_comad_in"⟩] [0, 0, 0, 1, 1, 1] c) :=
  ⟨_, rfl, by decide, agrees_iff rfl (by decide)⟩

/-- The task that activates a topic is overtaken, after its read, by the one that deactivates it:
the channel stays monitored, for no topic. -/
theorem not_agrees_overtaken :
    ∃ τ, run stepTask (start [⟨"pva", "channel:ramp:ramp", true, "acquire_comad_in"⟩,
        ⟨"pva", "channel:ramp:ramp", false, "acquire_comad_in"⟩]) [0, 0, 1, 1, 1, 0] = some τ ∧
      τ.Finished ∧ ¬ τ.Agrees :=
  ⟨_, rfl, by decide, fun h ↦ absurd (h "channel:ramp:ramp") (by decide)⟩

end Concurrent

end Ekg
