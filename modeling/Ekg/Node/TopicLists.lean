import Ekg.Lib.LastWrite
import Ekg.Node.Threads

/-!
# The topic lists under concurrent commands

A task looks its topic up without the lock, and takes the lock for the `push_back` or the `erase`
that follows.  In between, other tasks may change the list.  Two things can go wrong then:

* the iterator of a deactivation may have been invalidated, and what its `erase` does is undefined;
* the topic of an activation may have been pushed by another activation, and is pushed again.

The log shows both.  `topics_nodup_iff` is the exact result: in a run without the first, no list
ever has a topic twice if and only if the second does not happen either.
-/

set_option autoImplicit false

namespace Ekg

open LastWrite Steps

/-! ## Iterators -/

namespace VectorIterator

variable {itr : VectorIterator} {vec : List String} {changes : List VectorChange} {t u : String}

theorem valid_concat (h : itr.made ≤ changes.length) (change : VectorChange) :
    itr.valid (changes ++ [change]) = (itr.valid changes && change.keeps itr.position) := by
  simp [valid, List.drop_append_of_le_length h]

/-- The iterator was made by a search for `t` in this list: as long as it is valid, it points to
`t`. -/
structure PointsTo (itr : VectorIterator) (vec : List String) (changes : List VectorChange)
    (t : String) : Prop where
  made : itr.made ≤ changes.length
  getElem? : itr.valid changes = true → vec[itr.position]? = some t

theorem pointsTo_idxOf (h : t ∈ vec) (changes : List VectorChange) :
    PointsTo ⟨vec.idxOf t, changes.length⟩ vec changes t :=
  ⟨le_rfl, fun _ ↦ List.getElem?_idxOf h⟩

theorem PointsTo.pushBack (h : PointsTo itr vec changes t) (u : String) (reallocates : Bool) :
    PointsTo itr (vec ++ [u]) (changes ++ [.pushBack reallocates]) t := by
  refine ⟨by simpa using Nat.le_succ_of_le h.made, fun hvalid ↦ ?_⟩
  rw [valid_concat h.made, Bool.and_eq_true] at hvalid
  have hold := h.getElem? hvalid.1
  rw [List.getElem?_append_left (List.getElem?_eq_some_iff.mp hold).1, hold]

theorem PointsTo.erase (h : PointsTo itr vec changes t) (position : ℕ) :
    PointsTo itr (vec.eraseIdx position) (changes ++ [.erase position]) t := by
  refine ⟨by simpa using Nat.le_succ_of_le h.made, fun hvalid ↦ ?_⟩
  rw [valid_concat h.made, Bool.and_eq_true] at hvalid
  have hlt : itr.position < position := by simpa [VectorChange.keeps] using hvalid.2
  rw [List.getElem?_eraseIdx_of_lt hlt, h.getElem? hvalid.1]

/-- Erasing through a valid iterator keeps the other topics. -/
theorem mem_eraseIdx_of_ne {k : ℕ} (h : vec[k]? = some t) (hu : u ≠ t) :
    u ∈ vec.eraseIdx k ↔ u ∈ vec := by
  refine ⟨List.mem_of_mem_eraseIdx, fun hmem ↦ ?_⟩
  obtain ⟨j, hj⟩ := List.getElem?_of_mem hmem
  refine List.mem_eraseIdx_iff_getElem?.mpr ⟨j, ?_, hj⟩
  rintro rfl
  exact hu (Option.some_inj.mp (hj.symm.trans h))

/-- Erasing through a valid iterator removes its topic from a list without duplicates. -/
theorem not_mem_eraseIdx {k : ℕ} (hvec : vec.Nodup) (h : vec[k]? = some t) :
    t ∉ vec.eraseIdx k := by
  intro hmem
  obtain ⟨j, hne, hj⟩ := List.mem_eraseIdx_iff_getElem?.mp hmem
  obtain ⟨hjlt, hj⟩ := List.getElem?_eq_some_iff.mp hj
  obtain ⟨hklt, hk⟩ := List.getElem?_eq_some_iff.mp h
  exact hne ((hvec.getElem_inj_iff).mp (hj.trans hk.symm))

end VectorIterator

/-! ## What a step does to the lists -/

/-- The pair of a channel and a topic that a change of a list is about. -/
def ThreadEvent.pair? : ThreadEvent → Option (String × String)
  | .pushBack _ command => some command.target
  | .erase _ command _ => some command.target
  | _ => none

/-- The iterator that a deactivation holds at this point. -/
def TaskPoint.itr? : TaskPoint → Option VectorIterator
  | .present itr => some itr
  | .erasing itr => some itr
  | _ => none

/-- At this point an activation has not found its topic, and has not pushed it yet. -/
def TaskPoint.adds : TaskPoint → Bool
  | .absent => true
  | .pushing => true
  | _ => false

namespace Threads

variable {platform : Platform} {σ τ ρ : Threads} {i j : ℕ} {command : AquireCommand}
  {failure : Option SetupFailure} {s s' : Shared} {point point' : TaskPoint} {a : ThreadStep}
  {itr : VectorIterator}

/-- What a step does to the topic lists, and how it shows in the log. -/
inductive ListStep (σ : Threads) : ThreadStep → Threads → Prop
  /-- The lists stay. -/
  | quiet {a : ThreadStep} {τ : Threads} (events : List ThreadEvent)
      (hlog : τ.shared.log = σ.shared.log ++ events) (hevents : ∀ e ∈ events, e.pair? = none)
      (htopics : τ.shared.topics = σ.shared.topics)
      (hchanges : τ.shared.changes = σ.shared.changes) : ListStep σ a τ
  /-- A topic is pushed. -/
  | pushBack {i : ℕ} {failure : Option SetupFailure} {τ : Threads} (command : AquireCommand)
      (reallocates : Bool) (htask : σ.tasks[i]? = some (command, .pushing))
      (hlog : τ.shared.log = σ.shared.log ++ [.pushBack i command])
      (htopics : ∀ c, τ.shared.topics c =
        if command.channelName = c then σ.shared.topics c ++ [command.destinationTopic]
        else σ.shared.topics c)
      (hchanges : ∀ c, τ.shared.changes c =
        if command.channelName = c then σ.shared.changes c ++ [.pushBack reallocates]
        else σ.shared.changes c) : ListStep σ (.task i failure) τ
  /-- What an iterator points to is erased. -/
  | erase {i : ℕ} {failure : Option SetupFailure} {τ : Threads} (command : AquireCommand)
      (itr : VectorIterator) (htask : σ.tasks[i]? = some (command, .erasing itr))
      (hlog : τ.shared.log = σ.shared.log ++
        [.erase i command (itr.valid (σ.shared.changes command.channelName))])
      (htopics : itr.valid (σ.shared.changes command.channelName) = true → ∀ c,
        τ.shared.topics c =
          if command.channelName = c then (σ.shared.topics c).eraseIdx itr.position
          else σ.shared.topics c)
      (hchanges : ∀ c, τ.shared.changes c =
        if command.channelName = c then σ.shared.changes c ++ [.erase itr.position]
        else σ.shared.changes c) : ListStep σ (.task i failure) τ

theorem listStep_of_step (h : step platform σ a = some τ) : ListStep σ a τ := by
  cases a with
  | task i failure =>
    obtain ⟨command, point, point', s, htask, hadv, rfl⟩ := step_task_eq_some.mp h
    cases point with
    | queued =>
      cases hadv
      refine .quiet _ rfl (by simp [ThreadEvent.pair?]) ?_ rfl
      exact funext fun c ↦ ChannelTopicsMap.topics_lookup _ _
    | absent | present itr | updated | decided activate | finished =>
      obtain ⟨hstate, hchanges, hlog⟩ := shared_advanceTask hadv rfl
      exact .quiet [] (by rw [hlog, List.append_nil]) (by simp) (Shared.topics_congr hstate)
        hchanges
    | pushing =>
      cases hadv
      refine .pushBack command _ htask rfl (fun c ↦ ?_) fun c ↦ rfl
      simp only [Shared.topics_record, Shared.topics_setTopics]
      split
      · rename_i hc
        rw [← hc]
      · rfl
    | erasing itr =>
      cases hadv
      refine .erase command itr htask rfl (fun hvalid c ↦ ?_) fun c ↦ rfl
      simp only [Shared.topics_record, Shared.topics_setTopics, hvalid, if_true]
      split <;> simp [*, Shared.topics]
    | monitoring activate =>
      cases hadv
      refine .quiet _ rfl (fun e he ↦ ?_) rfl rfl
      rcases List.mem_append.mp he with he | he
      · rw [monitorRecord] at he
        split at he
        · split at he
          · rw [List.mem_singleton.mp he]
            rfl
          · cases he
        · rw [List.mem_singleton.mp he]
          rfl
      · rw [List.mem_singleton.mp he]
        rfl
  | scheduler alive =>
    obtain ⟨scan, s, hadv, rfl⟩ := step_scheduler_eq_some.mp h
    obtain ⟨events, heffect⟩ := exists_scanEffect hadv
    refine .quiet events heffect.log (fun e he ↦ ?_) heffect.topics heffect.changes
    rcases heffect.mem_events e he with ⟨_, _, _, _, -, rfl⟩ | ⟨_, rfl, -⟩ <;> rfl
  | arrive channelName mon =>
    cases h
    exact .quiet [] (List.append_nil _).symm (by simp) rfl rfl

/-- Where a task has got its iterator from. -/
theorem itr?_advanceTask (h : advanceTask platform i command failure s point = some (point', s'))
    (hitr : point'.itr? = some itr) :
    point.itr? = some itr ∨ (point = .queued ∧
      command.destinationTopic ∈ s.topics command.channelName ∧
      itr = ⟨(s.topics command.channelName).idxOf command.destinationTopic,
        (s.changes command.channelName).length⟩) := by
  cases point with
  | queued =>
    rw [advanceTask_queued, Option.some_inj, Prod.mk.injEq] at h
    obtain ⟨rfl, -⟩ := h
    right
    split at hitr
    · split at hitr <;> cases hitr
    · split at hitr
      · rename_i hmem
        exact ⟨rfl, hmem, (Option.some_inj.mp hitr).symm⟩
      · cases hitr
  | present itr' =>
    obtain ⟨mtx, -, heq⟩ := Option.map_eq_some_iff.mp h
    cases heq
    exact Or.inl hitr
  | absent =>
    obtain ⟨mtx, -, heq⟩ := Option.map_eq_some_iff.mp h
    cases heq
    cases hitr
  | decided activate =>
    simp only [advanceTask, Option.ite_none_right_eq_some, Option.some_inj, Prod.mk.injEq] at h
    obtain ⟨-, rfl, -⟩ := h
    cases hitr
  | finished => cases h
  | _ =>
    cases h
    cases hitr

/-- How a task has come to add its topic. -/
theorem adds_advanceTask (h : advanceTask platform i command failure s point = some (point', s'))
    (hadds : point'.adds = true) :
    point.adds = true ∨ (point = .queued ∧
      command.destinationTopic ∉ s.topics command.channelName ∧
      s'.log = s.log ++ [.lookup i command false]) := by
  cases point with
  | queued =>
    rw [advanceTask_queued, Option.some_inj, Prod.mk.injEq] at h
    obtain ⟨rfl, rfl⟩ := h
    right
    split at hadds
    · split at hadds
      · cases hadds
      · rename_i hmem
        exact ⟨rfl, hmem, by rw [decide_eq_false hmem]⟩
    · split at hadds <;> cases hadds
  | absent => exact Or.inl rfl
  | present itr' =>
    obtain ⟨mtx, -, heq⟩ := Option.map_eq_some_iff.mp h
    cases heq
    cases hadds
  | decided activate =>
    simp only [advanceTask, Option.ite_none_right_eq_some, Option.some_inj, Prod.mk.injEq] at h
    obtain ⟨-, rfl, -⟩ := h
    cases hadds
  | finished => cases h
  | _ =>
    cases h
    cases hadds

/-- A task is where it was, or it has made the step. -/
theorem tasks_step (h : step platform σ a = some τ) (hj : τ.tasks[j]? = some (command, point')) :
    σ.tasks[j]? = some (command, point') ∨ ∃ failure point, a = .task j failure ∧
      σ.tasks[j]? = some (command, point) ∧
      advanceTask platform j command failure σ.shared point = some (point', τ.shared) := by
  cases a with
  | task i failure =>
    obtain ⟨command', point, point'', s, htask, hadv, rfl⟩ := step_task_eq_some.mp h
    by_cases hij : i = j
    · subst hij
      rw [List.getElem?_set_self (List.getElem?_eq_some_iff.mp htask).1] at hj
      cases hj
      exact Or.inr ⟨failure, point, rfl, htask, hadv⟩
    · rw [List.getElem?_set_ne hij] at hj
      exact Or.inl hj
  | scheduler alive =>
    obtain ⟨scan, s, -, rfl⟩ := step_scheduler_eq_some.mp h
    exact Or.inl hj
  | arrive channelName mon =>
    cases h
    exact Or.inl hj

end Threads

/-! ## What the log says of the lists -/

/-- The event is a `push_back`. -/
def ThreadEvent.isPush : ThreadEvent → Bool
  | .pushBack _ _ => true
  | _ => false

/-- An `erase` through an iterator that was not valid any more. -/
def ThreadEvent.isStale : ThreadEvent → Bool
  | .erase _ _ valid => !valid
  | _ => false

/-- No task has erased through an iterator that was not valid any more. -/
def ErasesValid (log : List ThreadEvent) : Prop := ∀ e ∈ log, e.isStale = false

instance (log : List ThreadEvent) : Decidable (ErasesValid log) :=
  inferInstanceAs (Decidable (∀ e ∈ log, e.isStale = false))

/-- The last change of the list of a channel that was about this topic was a `push_back`. -/
def Listed (log : List ThreadEvent) (pair : String × String) : Prop :=
  EndsWith ThreadEvent.pair? (some pair) ThreadEvent.isPush log

/-- An activation has pushed a topic that another activation has pushed since its lookup, and that
was not erased in between. -/
def Overtaken (log : List ThreadEvent) : Prop :=
  ∃ a b d rest i j, ∃ command overtaking : AquireCommand,
    log = a ++ .lookup i command false :: b ++ .pushBack j overtaking :: d ++
      .pushBack i command :: rest ∧
    overtaking.target = command.target ∧
    ∀ k erasing valid, .erase k erasing valid ∈ d → erasing.target ≠ command.target

section Listed

variable {log events : List ThreadEvent} {e : ThreadEvent} {pair target : String × String}

theorem ErasesValid.of_prefix {log' : List ThreadEvent} (h : ErasesValid log')
    (hpre : log <+: log') : ErasesValid log :=
  fun e he ↦ h e (hpre.subset he)

theorem valid_of_erasesValid {log' : List ThreadEvent} {i : ℕ} {command : AquireCommand}
    {valid : Bool} (hlog : log' = log ++ [.erase i command valid]) (h : ErasesValid log') :
    valid = true := by
  have hstale := h (.erase i command valid) (by simp [hlog])
  simpa [ThreadEvent.isStale] using hstale

theorem Overtaken.of_prefix {log' : List ThreadEvent} (h : Overtaken log) (hpre : log <+: log') :
    Overtaken log' := by
  obtain ⟨a, b, d, rest, i, j, command, overtaking, rfl, htarget, herase⟩ := h
  obtain ⟨rest', rfl⟩ := hpre
  exact ⟨a, b, d, rest ++ rest', i, j, command, overtaking, by simp, htarget, herase⟩

theorem listed_append_quiet (h : ∀ e ∈ events, e.pair? = none) :
    Listed (log ++ events) pair ↔ Listed log pair :=
  endsWith_append_of_ne fun e he ↦ by simp [h e he]

theorem listed_concat (h : e.pair? = some target) :
    Listed (log ++ [e]) pair ↔ if target = pair then e.isPush = true else Listed log pair := by
  simp only [Listed, endsWith_concat, h, Option.some_inj]

/-- A `push_back` of a topic that is listed already, though the lookup did not find it, was
overtaken. -/
theorem overtaken_of_listed {a b : List ThreadEvent} {i : ℕ} {command : AquireCommand}
    (hlog : log = a ++ .lookup i command false :: b) (ha : ¬ Listed a command.target)
    (hlisted : Listed log command.target) : Overtaken (log ++ [.pushBack i command]) := by
  obtain ⟨e, he, hpush⟩ := hlisted
  rw [hlog, List.append_cons, lastOn_append, Option.or_eq_some_iff] at he
  rcases he with he | ⟨-, he⟩
  · -- the last change is one since the lookup
    obtain ⟨b, d, rfl, hpair, hd⟩ := lastOn_eq_some_iff.mp he
    cases e with
    | pushBack j overtaking =>
      refine ⟨a, b, d, [], i, j, command, overtaking, by simp [hlog], Option.some_inj.mp hpair, ?_⟩
      intro k erasing valid hmem htarget
      exact hd _ hmem (congrArg some htarget)
    | _ => cases hpush
  · refine absurd ⟨e, ?_, hpush⟩ ha
    rwa [lastOn_concat, if_neg nofun] at he

/-- Between the `push_back` that overtakes and the one that is overtaken, the topic is listed. -/
theorem listed_of_overtaken {a d : List ThreadEvent} {j : ℕ} {overtaking : AquireCommand}
    (herase : ∀ k erasing valid, .erase k erasing valid ∈ d →
      erasing.target ≠ overtaking.target) :
    Listed (a ++ .pushBack j overtaking :: d) overtaking.target := by
  refine endsWith_append_cons rfl rfl fun e he hpair ↦ ?_
  cases e with
  | pushBack k command => rfl
  | erase k erasing valid => exact absurd (Option.some_inj.mp hpair) (herase k erasing valid he)
  | _ => cases hpair

end Listed

/-! ## The invariants -/

namespace Threads

variable {platform : Platform} {σ τ ρ : Threads} {i j : ℕ} {command : AquireCommand}
  {a : ThreadStep} {manager : EpicsServiceManager} {commands : List AquireCommand}
  {sched : List ThreadStep}

/-- What is true as long as no `erase` is undefined. -/
structure ListsInv (σ : Threads) : Prop where
  /-- A valid iterator points to the topic that its task has looked up. -/
  iterators : ∀ (i : ℕ) (command : AquireCommand) (point : TaskPoint) (itr : VectorIterator),
    σ.tasks[i]? = some (command, point) → point.itr? = some itr →
      itr.PointsTo (σ.shared.topics command.channelName)
        (σ.shared.changes command.channelName) command.destinationTopic
  /-- What the log lists is there. -/
  mem_of_listed : ∀ c t, Listed σ.shared.log (c, t) → t ∈ σ.shared.topics c

theorem listsInv_start (manager : EpicsServiceManager) (commands : List AquireCommand) :
    (start manager commands).ListsInv := by
  refine ⟨fun i command point itr htask hitr ↦ ?_, fun c t hlisted ↦ ?_⟩
  · obtain ⟨command', -, heq⟩ := List.mem_map.mp (List.mem_of_getElem? htask)
    cases heq
    cases hitr
  · exact absurd hlisted not_endsWith_nil

theorem ListsInv.iterators_step (hσ : σ.ListsInv) (h : step platform σ a = some τ)
    (hvalid : ErasesValid τ.shared.log) {point : TaskPoint} {itr : VectorIterator}
    (htask : τ.tasks[i]? = some (command, point)) (hitr : point.itr? = some itr) :
    itr.PointsTo (τ.shared.topics command.channelName)
      (τ.shared.changes command.channelName) command.destinationTopic := by
  -- the iterator is as old as the step, or the step is a lookup and changes no list
  have hold : itr.PointsTo (σ.shared.topics command.channelName)
      (σ.shared.changes command.channelName) command.destinationTopic := by
    rcases tasks_step h htask with hsame | ⟨failure, point₀, -, htask₀, hadv⟩
    · exact hσ.iterators i command point itr hsame hitr
    · rcases itr?_advanceTask hadv hitr with hitr₀ | ⟨-, hmem, rfl⟩
      · exact hσ.iterators i command point₀ itr htask₀ hitr₀
      · exact VectorIterator.pointsTo_idxOf hmem _
  cases listStep_of_step h with
  | quiet events hlog hevents htopics hchanges => rwa [htopics, hchanges]
  | pushBack command' reallocates _ hlog htopics hchanges =>
    rw [htopics, hchanges]
    split
    · exact hold.pushBack _ _
    · exact hold
  | erase command' itr' _ hlog htopics hchanges =>
    rw [htopics (valid_of_erasesValid hlog hvalid), hchanges]
    split
    · exact hold.erase _
    · exact hold

theorem ListsInv.mem_of_listed_step (hσ : σ.ListsInv) (h : step platform σ a = some τ)
    (hvalid : ErasesValid τ.shared.log) {c t : String} (hlisted : Listed τ.shared.log (c, t)) :
    t ∈ τ.shared.topics c := by
  cases listStep_of_step h with
  | quiet events hlog hevents htopics hchanges =>
    rw [hlog, listed_append_quiet hevents] at hlisted
    rw [htopics]
    exact hσ.mem_of_listed c t hlisted
  | pushBack command reallocates htask hlog htopics hchanges =>
    rw [hlog, listed_concat (e := .pushBack _ command) rfl] at hlisted
    rw [htopics]
    split at hlisted
    · rename_i htarget
      cases htarget
      simp
    · have hmem := hσ.mem_of_listed c t hlisted
      split
      · exact List.mem_append_left _ hmem
      · exact hmem
  | erase command itr htask hlog htopics hchanges =>
    have hitr := valid_of_erasesValid hlog hvalid
    rw [hlog, listed_concat (e := .erase _ command _) rfl] at hlisted
    rw [htopics hitr]
    split at hlisted
    · cases hlisted
    · rename_i htarget
      have hmem := hσ.mem_of_listed c t hlisted
      split
      · rename_i hc
        subst hc
        have hpoints := (hσ.iterators _ command _ itr htask rfl).getElem? hitr
        exact (VectorIterator.mem_eraseIdx_of_ne hpoints fun ht ↦
          htarget (Prod.ext rfl ht.symm)).mpr hmem
      · exact hmem

theorem ListsInv.step (hσ : σ.ListsInv) (h : step platform σ a = some τ)
    (hvalid : ErasesValid τ.shared.log) : τ.ListsInv :=
  ⟨fun _ _ _ _ ↦ hσ.iterators_step h hvalid, fun _ _ ↦ hσ.mem_of_listed_step h hvalid⟩

/-- What is true as long as no activation is overtaken either. -/
structure NodupInv (σ : Threads) : Prop where
  nodup : ∀ c, (σ.shared.topics c).Nodup
  /-- What is there is listed. -/
  listed_of_mem : ∀ c, ∀ t ∈ σ.shared.topics c, Listed σ.shared.log (c, t)
  /-- When an activation did not find its topic, it was not listed. -/
  lookup : ∀ (i : ℕ) (command : AquireCommand) (point : TaskPoint),
    σ.tasks[i]? = some (command, point) → point.adds = true →
      ∃ a b, σ.shared.log = a ++ .lookup i command false :: b ∧ ¬ Listed a command.target

theorem nodupInv_start (manager : EpicsServiceManager) (commands : List AquireCommand) :
    (start manager commands).NodupInv := by
  have htopics : ∀ c, (start manager commands).shared.topics c = [] :=
    fun c ↦ ChannelTopicsMap.topics_empty (c := c)
  refine ⟨fun c ↦ ?_, fun c t hmem ↦ ?_, fun i command point htask hadds ↦ ?_⟩
  · rw [htopics]
    exact List.nodup_nil
  · rw [htopics] at hmem
    cases hmem
  · obtain ⟨command', -, heq⟩ := List.mem_map.mp (List.mem_of_getElem? htask)
    cases heq
    cases hadds

theorem NodupInv.lookup_step (hσ : σ.NodupInv) (hlists : σ.ListsInv)
    (h : step platform σ a = some τ) {point : TaskPoint}
    (htask : τ.tasks[i]? = some (command, point)) (hadds : point.adds = true) :
    ∃ a b, τ.shared.log = a ++ .lookup i command false :: b ∧ ¬ Listed a command.target := by
  obtain ⟨events, hlog⟩ := log_prefix_of_step a h
  have hold : ∀ point₀, σ.tasks[i]? = some (command, point₀) → point₀.adds = true →
      ∃ a b, τ.shared.log = a ++ .lookup i command false :: b ∧ ¬ Listed a command.target := by
    intro point₀ htask₀ hadds₀
    obtain ⟨a, b, hsplit, ha⟩ := hσ.lookup i command point₀ htask₀ hadds₀
    exact ⟨a, b ++ events, by rw [← hlog, hsplit]; simp, ha⟩
  rcases tasks_step h htask with hsame | ⟨failure, point₀, -, htask₀, hadv⟩
  · exact hold point hsame hadds
  · rcases adds_advanceTask hadv hadds with hadds₀ | ⟨-, hmem, hlookup⟩
    · exact hold point₀ htask₀ hadds₀
    · exact ⟨σ.shared.log, [], hlookup, fun hlisted ↦ hmem (hlists.mem_of_listed _ _ hlisted)⟩

/-- An activation that was not overtaken pushes a topic that is not there. -/
theorem NodupInv.not_mem_of_pushing (hσ : σ.NodupInv)
    (htask : σ.tasks[i]? = some (command, .pushing))
    (hovertaken : ¬ Overtaken (σ.shared.log ++ [.pushBack i command])) :
    command.destinationTopic ∉ σ.shared.topics command.channelName := by
  intro hmem
  obtain ⟨a, b, hlog, ha⟩ := hσ.lookup i command .pushing htask rfl
  exact hovertaken (overtaken_of_listed hlog ha (hσ.listed_of_mem _ _ hmem))

theorem NodupInv.nodup_step (hσ : σ.NodupInv) (h : step platform σ a = some τ)
    (hvalid : ErasesValid τ.shared.log) (hovertaken : ¬ Overtaken τ.shared.log) (c : String) :
    (τ.shared.topics c).Nodup := by
  cases listStep_of_step h with
  | quiet events hlog hevents htopics hchanges =>
    rw [htopics]
    exact hσ.nodup c
  | pushBack command reallocates htask hlog htopics hchanges =>
    rw [hlog] at hovertaken
    have hmem := hσ.not_mem_of_pushing htask hovertaken
    rw [htopics]
    split
    · rename_i hc
      subst hc
      rw [← List.concat_eq_append]
      exact (hσ.nodup _).concat hmem
    · exact hσ.nodup c
  | erase command itr htask hlog htopics hchanges =>
    rw [htopics (valid_of_erasesValid hlog hvalid)]
    split
    · exact (hσ.nodup c).eraseIdx _
    · exact hσ.nodup c

theorem NodupInv.listed_of_mem_step (hσ : σ.NodupInv) (hlists : σ.ListsInv)
    (h : step platform σ a = some τ) (hvalid : ErasesValid τ.shared.log) {c t : String}
    (hmem : t ∈ τ.shared.topics c) : Listed τ.shared.log (c, t) := by
  cases listStep_of_step h with
  | quiet events hlog hevents htopics hchanges =>
    rw [hlog, listed_append_quiet hevents]
    rw [htopics] at hmem
    exact hσ.listed_of_mem c t hmem
  | pushBack command reallocates htask hlog htopics hchanges =>
    rw [hlog, listed_concat (e := .pushBack _ command) rfl]
    split
    · rfl
    · rename_i htarget
      rw [htopics] at hmem
      split at hmem
      · rename_i hc
        subst hc
        rcases List.mem_append.mp hmem with hmem | hmem
        · exact hσ.listed_of_mem _ t hmem
        · exact absurd (by rw [List.mem_singleton.mp hmem]; rfl) htarget
      · exact hσ.listed_of_mem c t hmem
  | erase command itr htask hlog htopics hchanges =>
    have hitr := valid_of_erasesValid hlog hvalid
    have hpoints := (hlists.iterators _ command _ itr htask rfl).getElem? hitr
    rw [hlog, listed_concat (e := .erase _ command _) rfl]
    rw [htopics hitr] at hmem
    split
    · rename_i htarget
      cases htarget
      rw [if_pos rfl] at hmem
      exact absurd hmem (VectorIterator.not_mem_eraseIdx (hσ.nodup _) hpoints)
    · split at hmem
      · exact hσ.listed_of_mem c t (List.mem_of_mem_eraseIdx hmem)
      · exact hσ.listed_of_mem c t hmem

/-- **One step keeps the lists free of duplicates**, unless it is the step of an activation that
was overtaken. -/
theorem NodupInv.step (hσ : σ.NodupInv) (hlists : σ.ListsInv) (h : step platform σ a = some τ)
    (hvalid : ErasesValid τ.shared.log) (hovertaken : ¬ Overtaken τ.shared.log) : τ.NodupInv :=
  ⟨hσ.nodup_step h hvalid hovertaken, fun _ _ ↦ hσ.listed_of_mem_step hlists h hvalid,
    fun _ _ _ ↦ hσ.lookup_step hlists h⟩

/-! ## Runs -/

theorem listsInv_of_run (h : run (step platform) (start manager commands) sched = some σ)
    (hvalid : ErasesValid σ.shared.log) : σ.ListsInv :=
  run_invariant (P := fun ρ ↦ ErasesValid ρ.shared.log → ρ.ListsInv)
    (fun _ a _ hstep hρ hvalid' ↦
      (hρ (hvalid'.of_prefix (log_prefix_of_step a hstep))).step hstep hvalid')
    h (fun _ ↦ listsInv_start manager commands) hvalid

theorem nodupInv_of_run (h : run (step platform) (start manager commands) sched = some σ)
    (hvalid : ErasesValid σ.shared.log) (hovertaken : ¬ Overtaken σ.shared.log) : σ.NodupInv := by
  have hboth : σ.ListsInv ∧ σ.NodupInv :=
    run_invariant
      (P := fun ρ ↦ ErasesValid ρ.shared.log → ¬ Overtaken ρ.shared.log → ρ.ListsInv ∧ ρ.NodupInv)
      (fun _ a _ hstep hρ hvalid' hovertaken' ↦ by
        have hpre := log_prefix_of_step a hstep
        obtain ⟨hlists, hnodup⟩ := hρ (hvalid'.of_prefix hpre)
          fun hover ↦ hovertaken' (hover.of_prefix hpre)
        exact ⟨hlists.step hstep hvalid', hnodup.step hlists hstep hvalid' hovertaken'⟩)
      h (fun _ _ ↦ ⟨listsInv_start manager commands, nodupInv_start manager commands⟩)
      hvalid hovertaken
  exact hboth.2

/-- The step of an activation that was overtaken leaves a duplicate. -/
theorem not_nodup_of_overtaken (h : run (step platform) (start manager commands) sched = some σ)
    (hvalid : ErasesValid σ.shared.log) (hovertaken : Overtaken σ.shared.log) :
    ∃ done ρ c, done <+: sched ∧ run (step platform) (start manager commands) done = some ρ ∧
      ¬ (ρ.shared.topics c).Nodup := by
  obtain ⟨before, b, d, rest, i, j, command, overtaking, hlog, htarget, herase⟩ := hovertaken
  obtain ⟨done, a, rest', ρ, ρ', new, after, hsched, hρ, hstep, hbefore, hlog'⟩ :=
    exists_step_of_log (fun ρ : Threads ↦ ρ.shared.log) (fun _ a _ ↦ log_prefix_of_step a) h rfl
      hlog
  have hdone : run (step platform) (start manager commands) (done ++ [a]) = some ρ' :=
    run_concat_eq_some.mpr ⟨ρ, hρ, hstep⟩
  refine ⟨done ++ [a], ρ', command.channelName, by simp [hsched], hdone, ?_⟩
  have hrest : run (step platform) ρ (a :: rest') = some σ := by
    rw [hsched, run_append_of_eq_some hρ] at h
    exact h
  have hlists : ρ.ListsInv := listsInv_of_run hρ
    (hvalid.of_prefix (log_prefix_of_run (fun ρ : Threads ↦ ρ.shared.log)
      (fun _ a _ ↦ log_prefix_of_step a) hrest))
  have hevents : ∀ events, ρ'.shared.log = ρ.shared.log ++ events →
      events = new ++ .pushBack i command :: after := by
    intro events hevents
    rw [hlog', hbefore, List.append_assoc] at hevents
    exact (List.append_cancel_left hevents).symm
  cases listStep_of_step hstep with
  | quiet events hnew hquiet htopics hchanges =>
    have hnone := hquiet (.pushBack i command) (by rw [hevents events hnew]; simp)
    cases hnone
  | pushBack command' reallocates htask hnew htopics hchanges =>
    have heq := hevents _ hnew
    cases new with
    | nil =>
      cases heq
      rw [List.append_nil] at hbefore
      have hlisted : Listed ρ.shared.log command.target := by
        rw [← hbefore, ← htarget]
        exact listed_of_overtaken (htarget ▸ herase)
      rw [htopics, if_pos rfl]
      intro hnodup
      exact (List.nodup_append.mp hnodup).2.2 _ (hlists.mem_of_listed _ _ hlisted) _
        (List.mem_singleton_self _) rfl
    | cons e new => simp at heq
  | erase command' itr htask hnew htopics hchanges =>
    have hmem : ThreadEvent.pushBack i command ∈ new ++ .pushBack i command :: after := by simp
    rw [← hevents _ hnew] at hmem
    cases List.mem_singleton.mp hmem

/-- **No list ever has a topic twice**, in a run in which no `erase` is undefined, if and only if no
activation pushes a topic that another one has pushed since its lookup.  Of a run with an undefined
`erase` nothing is said, neither way: what it leaves in the list is up to the platform. -/
theorem topics_nodup_iff (h : run (step platform) (start manager commands) sched = some σ)
    (hvalid : ErasesValid σ.shared.log) :
    (∀ done ρ, done <+: sched → run (step platform) (start manager commands) done = some ρ →
        ∀ c, (ρ.shared.topics c).Nodup) ↔
      ¬ Overtaken σ.shared.log := by
  constructor
  · intro hnodup hovertaken
    obtain ⟨done, ρ, c, hdone, hρ, hnot⟩ := not_nodup_of_overtaken h hvalid hovertaken
    exact hnot (hnodup done ρ hdone hρ c)
  · rintro hovertaken done ρ ⟨rest, rfl⟩ hρ c
    rw [run_append_of_eq_some hρ] at h
    have hpre : ρ.shared.log <+: σ.shared.log :=
      log_prefix_of_run (fun ρ : Threads ↦ ρ.shared.log) (fun _ a _ ↦ log_prefix_of_step a) h
    exact (nodupInv_of_run hρ (hvalid.of_prefix hpre)
      fun hover ↦ hovertaken (hover.of_prefix hpre)).nodup c

/-- An activation and a deactivation of one topic, one after the other. -/
theorem topics_nodup_iff_serial :
    ∃ σ, run (step ⟨fun _ ↦ true, fun vec _ ↦ vec, true, fun _ ↦ 0, 0⟩)
        (start .empty [⟨"pva", "channel:ramp:ramp", true, "acquire_comad_in"⟩,
          ⟨"pva", "channel:ramp:ramp", false, "acquire_comad_in"⟩])
        [.task 0 none, .task 0 none, .task 0 none, .task 1 none, .task 1 none, .task 1 none] =
          some σ ∧
      ((∀ done ρ, done <+: [.task 0 none, .task 0 none, .task 0 none, .task 1 none, .task 1 none,
            .task 1 none] →
          run (step ⟨fun _ ↦ true, fun vec _ ↦ vec, true, fun _ ↦ 0, 0⟩)
            (start .empty [⟨"pva", "channel:ramp:ramp", true, "acquire_comad_in"⟩,
              ⟨"pva", "channel:ramp:ramp", false, "acquire_comad_in"⟩]) done = some ρ →
          ∀ c, (ρ.shared.topics c).Nodup) ↔
        ¬ Overtaken σ.shared.log) := by
  obtain ⟨σ, h, hvalid⟩ : ∃ σ, run (step ⟨fun _ ↦ true, fun vec _ ↦ vec, true, fun _ ↦ 0, 0⟩)
        (start .empty [⟨"pva", "channel:ramp:ramp", true, "acquire_comad_in"⟩,
          ⟨"pva", "channel:ramp:ramp", false, "acquire_comad_in"⟩])
        [.task 0 none, .task 0 none, .task 0 none, .task 1 none, .task 1 none, .task 1 none] =
          some σ ∧ ErasesValid σ.shared.log :=
    ⟨_, rfl, by decide⟩
  exact ⟨σ, h, topics_nodup_iff h hvalid⟩

/-- Two activations of one topic that look it up before either has pushed it. -/
theorem not_topics_nodup_activatedTwice :
    ∃ σ, run (step ⟨fun _ ↦ true, fun vec _ ↦ vec, true, fun _ ↦ 0, 0⟩)
        (start .empty [⟨"pva", "channel:ramp:ramp", true, "acquire_comad_in"⟩,
          ⟨"pva", "channel:ramp:ramp", true, "acquire_comad_in"⟩])
        [.task 0 none, .task 1 none, .task 0 none, .task 0 none, .task 1 none, .task 1 none] =
          some σ ∧
      ¬ (σ.shared.topics "channel:ramp:ramp").Nodup :=
  ⟨_, rfl, by decide⟩

end Threads

end Ekg
