import Ekg.Node.Serial
import Ekg.Node.TopicLists

/-!
# Batches that are delivered again

A batch whose position was not stored is delivered again, and by then the node may have processed a
part of it, or all of it.  With the commands executed one at a time, the topic lists are a
last-writer-wins store, and so the first part leaves no trace, but only if no list contains a topic
twice to begin with.  A deactivation takes one occurrence of its topic out of a list: if there are
two, it takes one more each time that it is delivered.

`redeliveryHarmless_iff` is the exact result.  Tasks that overtake each other can leave such a list;
as long as none is overtaken, redelivery is harmless (`redeliveryHarmless_of_run`).
-/

set_option autoImplicit false

namespace Ekg

open Steps

/-- The two nodes agree on the stored triples, on the set of topics of every channel and on the
monitored channels. -/
structure SameState (a b : NodeController) : Prop where
  triples : a.storage.triples = b.storage.triples
  topics : ∀ c t, t ∈ a.state.topics c ↔ t ∈ b.state.topics c
  monitored : ∀ c, a.state.Monitored c ↔ b.state.Monitored c

/-- After a history, a channel that was commanded is monitored if it has topics, and any other
channel is monitored if it was before. -/
theorem monitored_acquireAll (s : AcquireState) (commands : List AquireCommand) (c : String) :
    (acquireAll s commands).Monitored c ↔
      if ∃ command ∈ commands, command.channelName = c then (acquireAll s commands).topics c ≠ []
      else s.Monitored c := by
  induction commands using List.reverseRecOn with
  | nil => simp [acquireAll]
  | append_singleton commands command ih =>
    rw [acquireAll_concat, AcquireState.monitored_acquire, ih]
    by_cases hc : command.channelName = c
    · rw [if_pos hc, if_pos ⟨command, by simp, hc⟩]
    · rw [if_neg hc, AcquireState.topics_acquire, if_neg hc]
      simp [or_and_right, exists_or, hc]

/-- Running a prefix of a batch and then the batch is running the batch. -/
theorem acquireAll_replay {s : AcquireState} (hs : s.NodupTopics) {part batch : List AquireCommand}
    (hpre : part <+: batch) (c : String) :
    (∀ t, t ∈ (acquireAll (acquireAll s part) batch).topics c ↔
      t ∈ (acquireAll s batch).topics c) ∧
    ((acquireAll (acquireAll s part) batch).Monitored c ↔ (acquireAll s batch).Monitored c) := by
  have htopics : ∀ t, t ∈ (acquireAll (acquireAll s part) batch).topics c ↔
      t ∈ (acquireAll s batch).topics c := fun t ↦ by
    simpa [subscribed, acquireAll] using writes_acquire.obs_replay hs hpre (c, t)
  refine ⟨htopics, ?_⟩
  rw [monitored_acquireAll, monitored_acquireAll s batch, monitored_acquireAll s part]
  by_cases hc : ∃ command ∈ batch, command.channelName = c
  · -- the channel is decided again, by a list with the same topics
    rw [if_pos hc, if_pos hc, Ne, Ne, List.eq_nil_iff_forall_not_mem,
      List.eq_nil_iff_forall_not_mem]
    exact not_congr (forall_congr' fun t ↦ not_congr (htopics t))
  · have hpart : ¬ ∃ command ∈ part, command.channelName = c := by
      rintro ⟨command, hmem, hname⟩
      exact hc ⟨command, hpre.subset hmem, hname⟩
    rw [if_neg hc, if_neg hc, if_neg hpart]

namespace NodeController

/-- Whatever part of a batch is processed before the batch is delivered again, the node ends in the
same state as if it had not been. -/
def RedeliveryHarmless (node : NodeController) : Prop :=
  ∀ part batch : List AquireCommand, part <+: batch →
    SameState ((node.process (part.map .monitor)).process (batch.map .monitor))
      (node.process (batch.map .monitor))

theorem state_process_process (node : NodeController) (part batch : List AquireCommand) :
    ((node.process (part.map .monitor)).process (batch.map .monitor)).state =
      acquireAll (acquireAll node.runTasks.state part) batch := by
  -- nothing waits any more when the part has been processed
  rw [state_process, ← state_process node]
  rfl

/-- The stored triples do not depend on the state of the worker. -/
theorem triples_process_process (node : NodeController) {part batch : List AquireCommand}
    (hpre : part <+: batch) :
    ((node.process (part.map .monitor)).process (batch.map .monitor)).storage.triples =
      (node.process (batch.map .monitor)).storage.triples := by
  ext k
  rw [mem_triples_process, mem_triples_process, mem_triples_process]
  constructor
  · rintro (hk | ⟨c, hc, hk⟩ | hk)
    · exact Or.inl hk
    · exact Or.inl ⟨c, hpre.subset hc, hk⟩
    · exact Or.inr hk
  · rintro (hk | hk)
    · exact Or.inl hk
    · exact Or.inr (Or.inr hk)

/-- **No list has a topic twice: the part that was processed first leaves no trace.** -/
theorem redeliveryHarmless_of_nodup {node : NodeController}
    (h : node.runTasks.state.NodupTopics) : node.RedeliveryHarmless := by
  intro part batch hpre
  refine ⟨node.triples_process_process hpre, fun c t ↦ ?_, fun c ↦ ?_⟩
  · rw [state_process_process, state_process]
    exact (acquireAll_replay h hpre c).1 t
  · rw [state_process_process, state_process]
    exact (acquireAll_replay h hpre c).2

end NodeController

/-- Deactivations of one topic take as many of its occurrences out of the list. -/
theorem count_topics_deactivated (s : AcquireState) (c t : String) (k : ℕ) :
    ((acquireAll s (List.replicate k ⟨"pva", c, false, t⟩)).topics c).count t =
      (s.topics c).count t - k := by
  induction k generalizing s with
  | zero => rfl
  | succ k ih =>
    rw [List.replicate_succ]
    refine (ih _).trans ?_
    rw [AcquireState.topics_acquire, if_pos rfl, ChannelTopicsMap.updated,
      if_neg Bool.false_ne_true, List.count_erase_self]
    omega

namespace NodeController

/-- **Redelivery is harmless if and only if no list has a topic twice** in the state from which the
batch is processed: the state of the node, when the tasks that wait in the pool have been run. -/
theorem redeliveryHarmless_iff (node : NodeController) :
    node.RedeliveryHarmless ↔ node.runTasks.state.NodupTopics := by
  refine ⟨fun h c ↦ List.nodup_iff_count_le_one.mpr fun t ↦ ?_, redeliveryHarmless_of_nodup⟩
  -- a batch that deactivates the topic until one occurrence is left, and is delivered twice
  by_contra hcount
  have hsame := (h _ _ (List.prefix_refl (List.replicate
    ((node.runTasks.state.topics c).count t - 1) ⟨"pva", c, false, t⟩))).topics c t
  rw [state_process_process, state_process, ← List.count_pos_iff, ← List.count_pos_iff,
    count_topics_deactivated, count_topics_deactivated] at hsame
  omega

end NodeController

namespace Threads

variable {platform : Platform} {σ : Threads} {sched : List ThreadStep}

/-- In the state that a run has left behind, redelivery is harmless if no `erase` of the run was
undefined and no activation was overtaken. -/
theorem redeliveryHarmless_of_run {manager : EpicsServiceManager} {commands : List AquireCommand}
    (h : run (step platform) (start manager commands) sched = some σ)
    (hvalid : ErasesValid σ.shared.log) (hovertaken : ¬ Overtaken σ.shared.log)
    (storage : Storage) :
    NodeController.RedeliveryHarmless { storage, state := σ.shared.state } :=
  NodeController.redeliveryHarmless_of_nodup (nodupInv_of_run h hvalid hovertaken).nodup

/-- Two activations of one topic overtake each other, and the topic is in the list twice.  A batch
that deactivates it once removes one occurrence, and delivered again removes the other. -/
theorem not_redeliveryHarmless_overtaken :
    let command (activate : Bool) : AquireCommand :=
      ⟨"pva", "channel:ramp:ramp", activate, "acquire_comad_in"⟩
    let node := NodeController.submitCommand {} [.monitor (command true), .monitor (command true)]
    ∃ σ, run (step ⟨fun _ ↦ true, fun vec _ ↦ vec, true, fun _ ↦ 0, 0⟩)
        (start node.state.manager node.queue)
        [.task 0 none, .task 1 none, .task 0 none, .task 0 none, .task 1 none, .task 1 none,
          .task 0 none, .task 0 none, .task 0 none, .task 1 none, .task 1 none, .task 1 none] =
          some σ ∧
      (∀ task ∈ σ.tasks, task.2 = .finished) ∧
      ¬ NodeController.RedeliveryHarmless { node with queue := [], state := σ.shared.state } := by
  refine ⟨_, rfl, by decide, fun h ↦ ?_⟩
  have hsame := (h [⟨"pva", "channel:ramp:ramp", false, "acquire_comad_in"⟩]
    [⟨"pva", "channel:ramp:ramp", false, "acquire_comad_in"⟩]
    (List.prefix_refl _)).topics "channel:ramp:ramp" "acquire_comad_in"
  revert hsame
  decide

end Threads

end Ekg
