import Mathlib.Data.List.Pairwise
import Ekg.Command.CMDController
import Ekg.Lib.Steps

/-!
# Commits, crashes and restarts

What `consume` has committed is safe from a crash only if the broker has stored it.  The subscriber
offers both kinds of commit and takes a flag, and `consume` leaves the flag to its default, which
is documented as the synchronous mode.  `RDKafkaSubscriber::commit` has the two calls the wrong way
round: the default is `commitAsync`, which returns while the request is still on its way.

The broker keeps one offset, and a queue of requests that it has not stored yet.  A crash takes the
requests with it, and a restarted process starts at the stored offset.
`committedOnce_of_safeCrashes` is the property of all runs in which no crash comes too early, with
the exact meaning of too early: some committed message that stands for a command is not below the
stored offset.
-/

set_option autoImplicit false

namespace Ekg

open Steps

/-- What the broker has of the offsets of a consumer group. -/
structure BrokerOffsets where
  stored : ℕ
  /-- The requests it has not stored yet, oldest first. -/
  inFlight : List ℕ
  deriving DecidableEq, Repr

namespace BrokerOffsets

/-- `KafkaConsumer::commitSync`: returns when the position is stored. -/
def commitSync (position : ℕ) (_ : BrokerOffsets) : BrokerOffsets := ⟨position, []⟩

/-- `KafkaConsumer::commitAsync`: returns when the request is on its way. -/
def commitAsync (position : ℕ) (b : BrokerOffsets) : BrokerOffsets :=
  { b with inFlight := b.inFlight ++ [position] }

/-- `RDKafkaSubscriber::commit`, where `fails` is whether the call returns an error code.  It is
the flag `async` that selects `commitSync`. -/
def commit (fails : Bool) (position : ℕ) (b : BrokerOffsets) (async : Bool := false) :
    BrokerOffsets × Except String Unit :=
  if fails then (b, .error "Error committing offset")
  else (if async then b.commitSync position else b.commitAsync position, .ok ())

/-- The broker stores the oldest request. -/
def store (b : BrokerOffsets) : Option BrokerOffsets :=
  match b.inFlight with
  | [] => none
  | offset :: rest => some ⟨offset, rest⟩

/-- The offset that is stored once no request is left. -/
def requested (b : BrokerOffsets) : ℕ := b.inFlight.getLastD b.stored

/-- If requests are taken for stored, this is the subscriber as the loop of `consume` sees it. -/
theorem requested_commit (fails async : Bool) (b : BrokerOffsets) (s : RDKafkaSubscriber)
    (h : b.requested = s.committed) :
    (b.commit fails s.position async).1.requested = (s.commit fails async).1.committed := by
  rw [RDKafkaSubscriber.commit_fst_committed]
  cases fails with
  | true => exact h
  | false => cases async <;> simp [commit, commitSync, commitAsync, requested]

end BrokerOffsets

/-- Where a process is in the loop of `consume`. -/
inductive ConsumePoint
  /-- Before `getMsg`. -/
  | top
  /-- A batch was fetched, whose first message is at `first`. -/
  | fetched (first : ℕ)
  /-- Its commands, if it has any, were handled. -/
  | handled (first : ℕ)
  deriving DecidableEq, Repr

/-- A process that consumes. -/
structure ConsumeProcess where
  /-- The offset of the message that comes next. -/
  position : ℕ
  point : ConsumePoint
  deriving DecidableEq, Repr

/-- Where the batch starts that the process is working on, or will fetch next. -/
def ConsumeProcess.base (p : ConsumeProcess) : ℕ :=
  match p.point with
  | .top => p.position
  | .fetched first => first
  | .handled first => first

/-- What happens to the messages of the queue, each named by its offset. -/
inductive CommitEvent
  /-- The handler is called with the commands of these messages. -/
  | handed (offsets : List ℕ)
  /-- `commit()` has returned, after the batch of the messages from `first` to below `last`. -/
  | committed (first last : ℕ)
  deriving DecidableEq, Repr

/-- The second event hands on a message that the first has committed. -/
def CommitEvent.Repeats : CommitEvent → CommitEvent → Prop
  | .committed first last, .handed offsets => ∃ n ∈ offsets, first ≤ n ∧ n < last
  | .committed _ _, .committed _ _ => False
  | .handed _, _ => False

instance (earlier later : CommitEvent) : Decidable (earlier.Repeats later) :=
  match earlier, later with
  | .committed first last, .handed offsets =>
    inferInstanceAs (Decidable (∃ n ∈ offsets, first ≤ n ∧ n < last))
  | .committed _ _, .committed _ _ => inferInstanceAs (Decidable False)
  | .handed _, _ => inferInstanceAs (Decidable False)

/-- The broker, the process if there is one, and what has happened so far. -/
structure CommitState where
  broker : BrokerOffsets
  process : Option ConsumeProcess
  history : List CommitEvent
  deriving DecidableEq, Repr

/-- The steps of the process, of the broker, and of the world. -/
inductive CommitStep
  /-- `getMsg` returns this many messages. -/
  | getMsg (count : ℕ)
  /-- The handler is called, if there is a command, and throws or returns. -/
  | handle (throws : Bool)
  /-- `commit()` is called, and throws or returns. -/
  | commit (fails : Bool)
  | store
  | crash
  | restart
  deriving DecidableEq, Repr

namespace CommitState

/-- No process is running yet, and the broker has an offset for the group. -/
def start (stored : ℕ) : CommitState := ⟨⟨stored, []⟩, none, []⟩

variable (parser : MessageParser) (queue : ℕ → SubscriberInterfaceElement)

/-- The message at this offset stands for a command. -/
def decodes (offset : ℕ) : Bool := (parser.decode (queue offset)).isSome

/-- The messages of a batch that stand for commands. -/
def commandsOf (first last : ℕ) : List ℕ :=
  (List.range' first (last - first)).filter (decodes parser queue)

/-- One step. -/
def step (σ : CommitState) : CommitStep → Option CommitState
  | .getMsg count =>
    match σ.process with
    | some ⟨position, .top⟩ =>
      if count = 0 then some σ
      else some { σ with process := some ⟨position + count, .fetched position⟩ }
    | _ => none
  | .handle throws =>
    match σ.process with
    | some ⟨position, .fetched first⟩ =>
      let resultVec := commandsOf parser queue first position
      if resultVec.length = 0 then
        some { σ with process := some ⟨position, .handled first⟩ }
      else
        some { σ with
          -- a handler that throws skips the commit
          process := some ⟨position, if throws then .top else .handled first⟩
          history := σ.history ++ [.handed resultVec] }
    | _ => none
  | .commit fails =>
    match σ.process with
    | some ⟨position, .handled first⟩ =>
      match σ.broker.commit fails position with
      | (broker, .ok ()) =>
        some { broker, process := some ⟨position, .top⟩,
               history := σ.history ++ [.committed first position] }
      | (broker, .error _) => some { σ with broker, process := some ⟨position, .top⟩ }
    | _ => none
  | .store => σ.broker.store.map fun broker ↦ { σ with broker }
  | .crash =>
    match σ.process with
    | some _ => some { σ with broker := { σ.broker with inFlight := [] }, process := none }
    | none => none
  | .restart =>
    match σ.process with
    | some _ => none
    | none => some { σ with process := some ⟨σ.broker.stored, .top⟩ }

/-- No message is handed to the handler after a batch that it is part of was committed. -/
def CommittedOnce (σ : CommitState) : Prop :=
  σ.history.Pairwise fun earlier later ↦ ¬ earlier.Repeats later

instance : DecidablePred CommittedOnce := fun σ ↦
  inferInstanceAs (Decidable (σ.history.Pairwise fun earlier later ↦ ¬ earlier.Repeats later))

/-- Every committed message that stands for a command is below this offset. -/
def Below (σ : CommitState) (offset : ℕ) : Prop :=
  ∀ first last, .committed first last ∈ σ.history → ∀ n, first ≤ n → n < last →
    decodes parser queue n = true → n < offset

variable {parser queue} {σ τ : CommitState} {act : CommitStep} {acts : List CommitStep}

/-! ## One step -/

/-- The messages of a batch that stand for commands are in the batch. -/
theorem mem_commandsOf {first last n : ℕ} (h : first ≤ last) :
    n ∈ commandsOf parser queue first last ↔
      first ≤ n ∧ n < last ∧ decodes parser queue n = true := by
  rw [commandsOf, List.mem_filter, List.mem_range'_1, and_assoc, Nat.add_sub_cancel' h]

/-- What holds at every point of a run in which no crash comes too early. -/
structure Inv (parser : MessageParser) (queue : ℕ → SubscriberInterfaceElement)
    (σ : CommitState) : Prop where
  once : CommittedOnce σ
  /-- Whatever is handed to the handler next was not committed before. -/
  running : ∀ p, σ.process = some p → p.base ≤ p.position ∧ Below parser queue σ p.base
  down : σ.process = none → Below parser queue σ σ.broker.stored ∧ σ.broker.inFlight = []

theorem inv_start (stored : ℕ) : Inv parser queue (start stored) where
  once := List.Pairwise.nil
  running p hp := by cases hp
  down _ := ⟨fun _ _ hmem ↦ (by cases hmem), rfl⟩

theorem below_mono {m n : ℕ} (hmn : m ≤ n) (h : Below parser queue σ m) :
    Below parser queue σ n :=
  fun first last hmem k hfirst hlast hdecodes ↦
    Nat.lt_of_lt_of_le (h first last hmem k hfirst hlast hdecodes) hmn

variable {broker : BrokerOffsets} {process : Option ConsumeProcess} {first last : ℕ}

/-- What is handed to the handler does not change what was committed. -/
theorem below_handed {offsets : List ℕ} {n : ℕ} (h : Below parser queue σ n) :
    Below parser queue ⟨broker, process, σ.history ++ [.handed offsets]⟩ n := by
  intro a b hmem
  rcases List.mem_append.mp hmem with hold | hnew
  · exact h a b hold
  · cases List.mem_singleton.mp hnew

/-- A commit covers what is below the end of its batch. -/
theorem below_committed (hle : first ≤ last) (h : Below parser queue σ first) :
    Below parser queue ⟨broker, process, σ.history ++ [.committed first last]⟩ last := by
  intro a b hmem
  rcases List.mem_append.mp hmem with hold | hnew
  · exact below_mono hle h a b hold
  · obtain ⟨rfl, rfl⟩ := CommitEvent.committed.inj (List.mem_singleton.mp hnew)
    exact fun n _ hn _ ↦ hn

/-- A batch is handed on for the first time if nothing from its start on was committed. -/
theorem committedOnce_handed (hle : first ≤ last) (honce : CommittedOnce σ)
    (h : Below parser queue σ first) :
    CommittedOnce ⟨broker, process,
      σ.history ++ [.handed (commandsOf parser queue first last)]⟩ := by
  refine List.pairwise_append.mpr ⟨honce, List.pairwise_singleton _ _, ?_⟩
  intro earlier hearlier later hlater hrepeats
  obtain rfl := List.mem_singleton.mp hlater
  cases earlier with
  | handed offsets => exact hrepeats
  | committed a b =>
    obtain ⟨n, hn, ha, hb⟩ := hrepeats
    obtain ⟨hfirst, -, hdecodes⟩ := (mem_commandsOf hle).mp hn
    have := h a b hearlier n ha hb hdecodes
    omega

theorem committedOnce_committed (honce : CommittedOnce σ) :
    CommittedOnce ⟨broker, process, σ.history ++ [.committed first last]⟩ := by
  refine List.pairwise_append.mpr ⟨honce, List.pairwise_singleton _ _, ?_⟩
  intro earlier _ later hlater hrepeats
  obtain rfl := List.mem_singleton.mp hlater
  cases earlier <;> exact hrepeats

/-- The step lemma: only a crash can hurt, and only one that comes too early. -/
theorem Inv.step (h : Inv parser queue σ) (hstep : step parser queue σ act = some τ)
    (hcrash : act = .crash → Below parser queue σ σ.broker.stored) : Inv parser queue τ := by
  cases act with
  | getMsg count =>
    rw [CommitState.step] at hstep
    split at hstep
    · rename_i position hprocess
      obtain ⟨-, hbelow⟩ := h.running _ hprocess
      split at hstep
      · exact Option.some_inj.mp hstep ▸ h
      · obtain rfl := Option.some_inj.mp hstep
        refine ⟨h.once, fun p hp ↦ ?_, fun hnone ↦ by cases hnone⟩
        obtain rfl := Option.some_inj.mp hp
        exact ⟨Nat.le_add_right _ _, hbelow⟩
    · cases hstep
  | handle throws =>
    rw [CommitState.step] at hstep
    split at hstep
    · rename_i position first hprocess
      obtain ⟨hle, hbelow⟩ := h.running _ hprocess
      dsimp only [ConsumeProcess.base] at hle hbelow
      dsimp only at hstep
      split at hstep
      · obtain rfl := Option.some_inj.mp hstep
        refine ⟨h.once, fun p hp ↦ ?_, fun hnone ↦ by cases hnone⟩
        obtain rfl := Option.some_inj.mp hp
        exact ⟨hle, hbelow⟩
      · obtain rfl := Option.some_inj.mp hstep
        refine ⟨committedOnce_handed hle h.once hbelow, fun p hp ↦ ?_, fun hnone ↦ by cases hnone⟩
        obtain rfl := Option.some_inj.mp hp
        cases throws with
        | true => exact ⟨Nat.le_refl _, below_handed (below_mono hle hbelow)⟩
        | false => exact ⟨hle, below_handed hbelow⟩
    · cases hstep
  | commit fails =>
    rw [CommitState.step] at hstep
    split at hstep
    · rename_i position first hprocess
      obtain ⟨hle, hbelow⟩ := h.running _ hprocess
      dsimp only [ConsumeProcess.base] at hle hbelow
      split at hstep
      · obtain rfl := Option.some_inj.mp hstep
        refine ⟨committedOnce_committed h.once, fun p hp ↦ ?_, fun hnone ↦ by cases hnone⟩
        obtain rfl := Option.some_inj.mp hp
        exact ⟨Nat.le_refl _, below_committed hle hbelow⟩
      · obtain rfl := Option.some_inj.mp hstep
        refine ⟨h.once, fun p hp ↦ ?_, fun hnone ↦ by cases hnone⟩
        obtain rfl := Option.some_inj.mp hp
        exact ⟨Nat.le_refl _, below_mono hle hbelow⟩
    · cases hstep
  | store =>
    obtain ⟨broker, hstore, rfl⟩ := Option.map_eq_some_iff.mp hstep
    refine ⟨h.once, h.running, fun hnone ↦ ?_⟩
    -- without a process there is nothing to store
    rw [BrokerOffsets.store, (h.down hnone).2] at hstore
    cases hstore
  | crash =>
    rw [CommitState.step] at hstep
    split at hstep
    · obtain rfl := Option.some_inj.mp hstep
      exact ⟨h.once, fun p hp ↦ (by cases hp), fun _ ↦ ⟨hcrash rfl, rfl⟩⟩
    · cases hstep
  | restart =>
    rw [CommitState.step] at hstep
    split at hstep
    · cases hstep
    · rename_i hprocess
      obtain rfl := Option.some_inj.mp hstep
      refine ⟨h.once, fun p hp ↦ ?_, fun hnone ↦ by cases hnone⟩
      obtain rfl := Option.some_inj.mp hp
      exact ⟨Nat.le_refl _, (h.down hprocess).1⟩

/-! ## Runs -/

/-- No crash comes before the broker has stored an offset behind every committed message that
stands for a command. -/
def SafeCrashes (parser : MessageParser) (queue : ℕ → SubscriberInterfaceElement) (stored : ℕ)
    (acts : List CommitStep) : Prop :=
  ∀ before after ρ, acts = before ++ .crash :: after →
    run (CommitState.step parser queue) (start stored) before = some ρ →
    Below parser queue ρ ρ.broker.stored

/-- The only crash of a run is the one to look at. -/
theorem safeCrashes_of_single {stored : ℕ} {before after : List CommitStep}
    (hbefore : .crash ∉ before) (hafter : .crash ∉ after)
    (h : ∀ ρ, run (CommitState.step parser queue) (start stored) before = some ρ →
      Below parser queue ρ ρ.broker.stored) :
    SafeCrashes parser queue stored (before ++ .crash :: after) := by
  intro before' after' ρ hacts hρ
  obtain ⟨rfl, -, -⟩ := (List.append_cons_inj_of_notMem hbefore hafter).mp hacts
  exact h ρ hρ

theorem inv_of_run {stored : ℕ}
    (h : run (CommitState.step parser queue) (start stored) acts = some σ)
    (hsafe : SafeCrashes parser queue stored acts) : Inv parser queue σ := by
  refine run_invariant_of_meets (P := Inv parser queue)
    (C := fun ρ a ↦ a = .crash → Below parser queue ρ ρ.broker.stored)
    (fun _ _ _ hstep hcrash hρ ↦ hρ.step hstep hcrash) h ?_ (inv_start stored)
  rintro before a after ρ hacts hρ rfl
  exact hsafe before after ρ hacts hρ

/-- If a process crashes too early, the next one can be made to repeat a command: it fetches up to
a message that was committed and is not stored, and hands it on. -/
theorem exists_repeat {p : ConsumeProcess} (hp : σ.process = some p)
    (hbelow : ¬ Below parser queue σ σ.broker.stored) :
    ∃ count τ, run (CommitState.step parser queue) σ
      [.crash, .restart, .getMsg count, .handle false] = some τ ∧ ¬ CommittedOnce τ := by
  simp only [Below, not_forall, Nat.not_lt] at hbelow
  obtain ⟨first, last, hmem, n, hfirst, hlast, hdecodes, hstored⟩ := hbelow
  have hposition : σ.broker.stored + (n + 1 - σ.broker.stored) = n + 1 := by omega
  have hn : n ∈ commandsOf parser queue σ.broker.stored (n + 1) :=
    (mem_commandsOf (by omega)).mpr ⟨hstored, Nat.lt_succ_self n, hdecodes⟩
  have hne : commandsOf parser queue σ.broker.stored (n + 1) ≠ [] := List.ne_nil_of_mem hn
  refine ⟨n + 1 - σ.broker.stored, ⟨⟨σ.broker.stored, []⟩,
    some ⟨n + 1, .handled σ.broker.stored⟩,
    σ.history ++ [.handed (commandsOf parser queue σ.broker.stored (n + 1))]⟩, ?_, ?_⟩
  · have hcount : n + 1 - σ.broker.stored ≠ 0 := by omega
    simp [run_cons, step, hp, hcount, hposition, hne]
  · intro honce
    exact (List.pairwise_append.mp honce).2.2 _ hmem _ (List.mem_singleton_self _)
      ⟨n, hn, hfirst, hlast⟩

/-- **A committed batch is not processed again, unless a crash comes too early**: before the broker
has stored an offset behind every message of a committed batch that stands for a command.  That no
crash has come too early is enough for the run so far.  For the next crash it is an equivalence: if
it comes too early, there is a way to go on that processes a committed batch again. -/
theorem committedOnce_of_safeCrashes {stored : ℕ}
    (h : run (CommitState.step parser queue) (start stored) acts = some σ)
    (hsafe : SafeCrashes parser queue stored acts) :
    CommittedOnce σ ∧
      (σ.process ≠ none →
        (Below parser queue σ σ.broker.stored ↔
          ∀ more τ, .crash ∉ more →
            run (CommitState.step parser queue) σ (.crash :: more) = some τ →
              CommittedOnce τ)) := by
  have hinv := inv_of_run h hsafe
  refine ⟨hinv.once, fun hprocess ↦ ⟨fun hbelow more τ hmore hτ ↦ ?_, fun hall ↦ ?_⟩⟩
  · obtain ⟨ρ, hcrash, hrest⟩ := run_cons_eq_some.mp hτ
    have hρ : Inv parser queue ρ := hinv.step hcrash fun _ ↦ hbelow
    exact (run_invariant_of_mem (P := Inv parser queue) (fun a ha s t hst hs ↦
      hs.step hst fun hacrash ↦ absurd (hacrash ▸ ha) hmore) hrest hρ).once
  · obtain ⟨p, hp⟩ := Option.ne_none_iff_exists'.mp hprocess
    by_contra hbelow
    obtain ⟨count, τ, hτ, honce⟩ := exists_repeat hp hbelow
    exact honce (hall _ τ (by simp) hτ)

/-- The queue of the test, with the one command that `rampParser` knows. -/
def rampQueue (_ : ℕ) : SubscriberInterfaceElement := ⟨"default-key", CMDController.getRampText⟩

/-- One command is committed, and the process crashes after the broker has stored the offset. -/
theorem committedOnce_of_safeCrashes_stored :
    ∃ σ, run (CommitState.step CMDController.rampParser rampQueue) (start 0)
        ([.restart, .getMsg 1, .handle false, .commit false, .store] ++ .crash :: [.restart]) =
          some σ ∧
      CommittedOnce σ := by
  obtain ⟨ρ, hρ, hhistory, hstored⟩ : ∃ ρ,
      run (CommitState.step CMDController.rampParser rampQueue) (start 0)
        [.restart, .getMsg 1, .handle false, .commit false, .store] = some ρ ∧
      ρ.history = [.handed [0], .committed 0 1] ∧ ρ.broker.stored = 1 :=
    ⟨_, rfl, by decide, by decide⟩
  have hsafe : SafeCrashes CMDController.rampParser rampQueue 0
      ([.restart, .getMsg 1, .handle false, .commit false, .store] ++ .crash :: [.restart]) := by
    refine safeCrashes_of_single (by decide) (by decide) fun ρ' hρ' ↦ ?_
    obtain rfl := Option.some_inj.mp (hρ.symm.trans hρ')
    intro first last hmem n _ hn _
    rw [hhistory] at hmem
    obtain ⟨-, rfl⟩ : first = 0 ∧ last = 1 := by simpa using hmem
    omega
  obtain ⟨σ, hσ⟩ : ∃ σ, run (CommitState.step CMDController.rampParser rampQueue) (start 0)
      ([.restart, .getMsg 1, .handle false, .commit false, .store] ++ .crash :: [.restart]) =
        some σ := ⟨_, rfl⟩
  exact ⟨σ, hσ, (committedOnce_of_safeCrashes hσ hsafe).1⟩

/-- One command is committed, the process crashes with the request on its way, and the command is
handed to the handler of the next process. -/
theorem not_committedOnce_requestLost :
    ∃ σ, run (CommitState.step CMDController.rampParser rampQueue) (start 0)
        [.restart, .getMsg 1, .handle false, .commit false, .crash, .restart, .getMsg 1,
          .handle false] = some σ ∧ ¬ CommittedOnce σ :=
  ⟨_, rfl, by decide⟩

end CommitState

end Ekg
