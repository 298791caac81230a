import Ekg.Common.PoolTasks
import Ekg.Common.ThreadPool
import Ekg.Node.Serial

/-!
# Commands executed by the pool

`submitCommand` changes the stored configuration in the order in which commands are submitted, and
pushes a task for each.  The pool starts the tasks in that order too, but with several threads it
does not finish them in that order, and two commands about the same topic do not commute.

Here a whole task is one step, at the moment it is finished.  `followsSubmission_iff` says when the
topic lists can be trusted to be those of the submission order: on a machine that runs one task at
a time, or if no topic of a channel is both activated and deactivated.  The last section takes this
down to the threads of the pool, with their mutex and their condition variables.
-/

set_option autoImplicit false

namespace Ekg

open LastWrite Steps

/-- The pool of a node controller to which the commands are submitted. -/
def poolOf (commands : List AquireCommand) : ThreadPool AquireCommand where
  incoming := (NodeController.submitCommand {} (commands.map .monitor)).queue

theorem poolOf_eq (commands : List AquireCommand) : poolOf commands = { incoming := commands } := by
  rw [poolOf, NodeController.queue_submitCommand, filterMap_monitor?]
  rfl

/-- Whatever the pool of `threadCount` threads does, once all the tasks are finished every channel
has the topics that the commands would give it one after the other. -/
def FollowsSubmission (threadCount : ℕ) (commands : List AquireCommand) : Prop :=
  ∀ acts pool, run (ThreadPool.step threadCount) (poolOf commands) acts = some pool →
    pool.Idle → ∀ c t, t ∈ (acquireAll {} pool.done).topics c ↔
      t ∈ (acquireAll {} commands).topics c

variable {threadCount : ℕ} {commands : List AquireCommand}

/-- A single thread executes the commands as submitted. -/
theorem followsSubmission_one (commands : List AquireCommand) : FollowsSubmission 1 commands := by
  intro acts pool hrun hidle c t
  rw [poolOf_eq] at hrun
  rw [ThreadPool.done_of_one hrun hidle]

/-- Commands that never disagree about a topic may be executed in any order. -/
theorem followsSubmission_of_agree
    (h : ∀ x ∈ commands, ∀ y ∈ commands, x.target = y.target → x.activate = y.activate) :
    FollowsSubmission threadCount commands := by
  intro acts pool hrun hidle c t
  rw [poolOf_eq] at hrun
  rw [mem_topics_acquireAll, mem_topics_acquireAll,
    lastOn_perm (ThreadPool.perm_of_run hrun hidle).symm]
  intro x hx y hy hxk hyk
  exact h x hx y hy (hxk.trans hyk.symm)

/-- With two threads, a command that is not the last word on its topic can be made so. -/
theorem FollowsSubmission.activate_eq (h : FollowsSubmission threadCount commands)
    (hthreads : 2 ≤ threadCount) {x last : AquireCommand} (hx : x ∈ commands)
    (hlast : lastOn AquireCommand.target x.target commands = some last) :
    x.activate = last.activate := by
  obtain ⟨before, after, rfl⟩ := List.append_of_mem hx
  obtain ⟨acts, pool, hrun, hidle, hdone⟩ :=
    ThreadPool.exists_run_delayed hthreads before after x
  rw [← poolOf_eq] at hrun
  have hmem := h acts pool hrun hidle x.channelName x.destinationTopic
  have htarget : x.target = (x.channelName, x.destinationTopic) := rfl
  rw [mem_topics_acquireAll, mem_topics_acquireAll, hdone, ← htarget, lastOn_concat, if_pos rfl,
    hlast, Option.map_some, Option.map_some, Option.some_inj, Option.some_inj] at hmem
  exact Bool.eq_iff_iff.mpr hmem

theorem determineThreadCount_zero (hardwareConcurrency : ℕ) :
    ThreadPool.determineThreadCount hardwareConcurrency 0 = max 1 hardwareConcurrency := by
  rw [ThreadPool.determineThreadCount, if_neg (Nat.lt_irrefl 0)]
  split <;> omega

/-- **Submission order is kept exactly where nothing can be reordered or nothing disagrees.** -/
theorem followsSubmission_iff (hardwareConcurrency : ℕ) (commands : List AquireCommand) :
    FollowsSubmission (ThreadPool.determineThreadCount hardwareConcurrency 0) commands ↔
      hardwareConcurrency ≤ 1 ∨
      ∀ x ∈ commands, ∀ y ∈ commands, x.target = y.target → x.activate = y.activate := by
  rw [determineThreadCount_zero]
  constructor
  · intro h
    refine or_iff_not_imp_left.mpr fun hhw x hx y hy hxy ↦ ?_
    have hthreads : 2 ≤ max 1 hardwareConcurrency := by omega
    have hsome : (lastOn AquireCommand.target x.target commands).isSome :=
      lastOn_isSome_of_mem hx rfl
    obtain ⟨last, hlast⟩ := Option.isSome_iff_exists.mp hsome
    rw [h.activate_eq hthreads hx hlast, h.activate_eq hthreads hy (hxy ▸ hlast)]
  · rintro (hhw | hagree)
    · rw [show max 1 hardwareConcurrency = 1 by omega]
      exact followsSubmission_one commands
    · exact followsSubmission_of_agree hagree

/-- A deactivation that overtakes the activation before it: the topic stays subscribed. -/
theorem not_followsSubmission_overtaken :
    ¬ FollowsSubmission (ThreadPool.determineThreadCount 2 0)
      [⟨"pva", "channel:ramp:ramp", true, "acquire_comad_in"⟩,
        ⟨"pva", "channel:ramp:ramp", false, "acquire_comad_in"⟩] := by
  intro h
  have hmem := h [.push, .push, .take, .take, .finish 1, .finish 0] _ rfl ⟨rfl, rfl, rfl⟩
    "channel:ramp:ramp" "acquire_comad_in"
  exact absurd hmem (by decide)

/-! ## The threads of the pool -/

/-- **The threads of the pool leave the topics of the submission order**, on a machine that runs one
thread or for commands that do not disagree: whatever the workers, the pushers and the caller of
`wait_for_tasks` did in between, when no task is waiting or under way every channel has the topics
that the commands would give it one after the other, as they were pushed. -/
theorem mem_topics_of_threads {hardwareConcurrency : ℕ}
    {sched : List (PoolAction AquireCommand)} {s : PoolThreads AquireCommand}
    (h : run (PoolThreads.step hardwareConcurrency) (PoolThreads.construct hardwareConcurrency 0)
      sched = some s)
    (hreset : ∀ threadCount, .call (.reset threadCount) ∉ sched)
    (htasks : s.tasks = []) (hbusy : ∀ place ∈ s.workers, place.task? = none)
    (hcommands : hardwareConcurrency ≤ 1 ∨
      ∀ x ∈ s.pushed, ∀ y ∈ s.pushed, x.target = y.target → x.activate = y.activate)
    (c t : String) :
    t ∈ (acquireAll {} s.done).topics c ↔ t ∈ (acquireAll {} s.pushed).topics c := by
  obtain ⟨acts, pool, hrun, hincoming, htasks', hunderWay, hdone⟩ :=
    PoolThreads.realised_of_run h le_rfl (fun threadCount hmem ↦ absurd hmem (hreset threadCount))
      []
  have hidle : pool.Idle := by
    refine ⟨hincoming, htasks'.trans htasks, Multiset.coe_eq_zero _ |>.mp (hunderWay.trans ?_)⟩
    exact congrArg Multiset.ofList (List.filterMap_eq_nil_iff.mpr hbusy)
  have hfollows : FollowsSubmission (ThreadPool.determineThreadCount hardwareConcurrency 0)
      s.pushed := by
    rcases hcommands with hone | hagree
    · rw [determineThreadCount_zero, show max 1 hardwareConcurrency = 1 by omega]
      exact followsSubmission_one s.pushed
    · exact followsSubmission_of_agree hagree
  rw [List.append_nil, ← poolOf_eq] at hrun
  have hdone : pool.done = s.done := hdone
  rw [← hdone]
  exact hfollows acts pool hrun hidle c t

/-- An activation and the deactivation of its topic are pushed one after the other, and the only
worker executes both. -/
def rampSchedule : List (PoolAction AquireCommand) :=
  List.replicate 3 .manager ++
    .pushTask ⟨"pva", "channel:ramp:ramp", true, "acquire_comad_in"⟩ ::
      List.replicate 4 (.pusher 0 0) ++
    .pushTask ⟨"pva", "channel:ramp:ramp", false, "acquire_comad_in"⟩ ::
      List.replicate 4 (.pusher 1 0) ++
    List.replicate 20 (.worker 0)

theorem mem_topics_of_threads_ramp :
    ∃ s, run (PoolThreads.step 1) (PoolThreads.construct 1 0) rampSchedule = some s ∧
      s.done.length = 2 ∧
      ∀ c t, t ∈ (acquireAll {} s.done).topics c ↔ t ∈ (acquireAll {} s.pushed).topics c := by
  refine ⟨_, rfl, rfl, fun c t ↦ mem_topics_of_threads
    (show run (PoolThreads.step 1) (PoolThreads.construct 1 0) rampSchedule = _ from rfl)
    (by simp [rampSchedule]) rfl ?_ (.inl le_rfl) c t⟩
  rintro place hplace
  cases List.mem_singleton.mp hplace
  rfl

end Ekg
