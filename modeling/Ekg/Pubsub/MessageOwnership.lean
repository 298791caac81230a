import Ekg.Lib.Steps

/-!
# Who owns a message

`pushMessage` has a message in a unique pointer, hands the raw pointer to the producer, which keeps
it next to the payload without copying anything, and gives its own pointer up afterwards, if the
message was accepted.  `dr_cb` makes a unique pointer of the raw one.  In between, both threads can
reach the message, and the report may come before `release`.

A `PublishedMessage` is one message with the thread that publishes it and its place in the producer.
Messages share nothing, so what happens to many of them, on any number of threads, is a run of
`each advance`.  Nothing here asks whether a message is still there before it is read or freed: that
it is, is what `oneOwner_of_run` says.  What is assumed of librdkafka is that it reads the payload,
and reports a message, only between its acceptance and its report.

The history of a message is what the steps have done to it.  `entriesOf` says what that should be,
from the steps alone: which of them read the message, and which free it.
-/

set_option autoImplicit false

namespace Ekg

open Steps

universe u

/-- Who frees a message. -/
inductive Releaser
  | pushMessage | drCb
  deriving DecidableEq, Repr

/-- What happens to a message. -/
inductive MessageEvent
  | read | accept | refuse | report
  | free (who : Releaser)
  deriving DecidableEq, Repr

/-- Where the thread that publishes a message is. -/
inductive SenderPoint
  /-- Before the call of `pushMessage`. -/
  | caller
  /-- In `pushMessage`, before the arguments of `produce`. -/
  | reading
  /-- Before `produce` has decided. -/
  | producing
  /-- The message is accepted. -/
  | accepted
  /-- The message is refused. -/
  | refused
  /-- Behind `message.release()`. -/
  | released
  /-- Behind the destructor of `message`. -/
  | returned
  deriving DecidableEq, Repr

/-- Where a message is in the producer. -/
inductive QueuePoint
  /-- It was not accepted. -/
  | absent
  /-- It was accepted, and its report is yet to come. -/
  | inFlight
  /-- At the beginning of `dr_cb`. -/
  | reporting
  /-- In `dr_cb`, behind the lookup of the callback. -/
  | handling
  /-- Behind the destructor of `message_managed`. -/
  | reported
  deriving DecidableEq, Repr

/-- A message, and what has happened to it. -/
structure PublishedMessage where
  sender : SenderPoint
  /-- The unique pointer of `pushMessage` is not null. -/
  pointer : Bool
  queue : QueuePoint
  history : List MessageEvent
  deriving DecidableEq, Repr

namespace PublishedMessage

/-- A message in the hands of its caller. -/
def construct : PublishedMessage where
  sender := .caller
  pointer := false
  queue := .absent
  history := []

/-- The steps of the publishing thread, of librdkafka's threads, and of the thread that serves the
delivery reports. -/
inductive Action
  | call | readArguments
  | produce (accepted : Bool)
  | release | ret
  | transmit
  | report | lookUp | callback | finish
  deriving DecidableEq, Repr

/-- The entry that a step makes. -/
def log (e : MessageEvent) (m : PublishedMessage) : PublishedMessage :=
  { m with history := m.history ++ [e] }

/-- One step. -/
def advance (m : PublishedMessage) (a : Action) : Option PublishedMessage :=
  match a with
  | .call =>
    if m.sender = .caller then some { m with sender := .reading, pointer := true } else none
  | .readArguments =>
    if m.sender = .reading then some ({ m with sender := .producing }.log .read) else none
  | .produce accepted =>
    if m.sender = .producing then
      some (if accepted then { m with sender := .accepted, queue := .inFlight }.log .accept
        else { m with sender := .refused }.log .refuse)
    else none
  | .release =>
    if m.sender = .accepted then some { m with sender := .released, pointer := false } else none
  | .ret =>
    if m.sender = .released ∨ m.sender = .refused then
      -- the destructor of `message`
      some (if m.pointer then
        { m with sender := .returned, pointer := false }.log (.free .pushMessage)
        else { m with sender := .returned })
    else none
  | .transmit => if m.queue = .inFlight then some (m.log .read) else none
  | .report =>
    if m.queue = .inFlight then some ({ m with queue := .reporting }.log .report) else none
  | .lookUp =>
    if m.queue = .reporting then some ({ m with queue := .handling }.log .read) else none
  | .callback => if m.queue = .handling then some (m.log .read) else none
  | .finish =>
    -- the destructor of `message_managed`
    if m.queue = .handling then some ({ m with queue := .reported }.log (.free .drCb)) else none

/-- The owner of a message. -/
inductive Owner
  | caller | pushMessage | queue | freed
  deriving DecidableEq, Repr

/-- Whose the message is.  Once it is accepted it is the producer's, although `pushMessage` still
has a pointer until `release`. -/
def owner (m : PublishedMessage) : Owner :=
  match m.queue, m.sender with
  | .reported, _ => .freed
  | .absent, .caller => .caller
  | .absent, .returned => .freed
  | .absent, _ => .pushMessage
  | _, _ => .queue

/-- What a step does to a message with this history.  The return of `pushMessage` frees a message
that was refused. -/
def Action.entries (history : List MessageEvent) : Action → List MessageEvent
  | .call | .release => []
  | .readArguments | .transmit | .lookUp | .callback => [.read]
  | .produce true => [.accept]
  | .produce false => [.refuse]
  | .ret => if .refuse ∈ history then [.free .pushMessage] else []
  | .report => [.report]
  | .finish => [.free .drCb]

/-- What some steps do to a message, in order. -/
def entriesOf (acts : List Action) : List MessageEvent :=
  acts.foldl (fun history a ↦ history ++ a.entries history) []

/-- The event is a `free`. -/
def isFree : MessageEvent → Bool
  | .free _ => true
  | _ => false

variable {m m' : PublishedMessage} {a : Action} {e : MessageEvent} {acts : List Action}

/-! ## The invariant -/

/-- What holds of a message after every step: the points at which its threads are, and the entries
that they have made by then. -/
structure Owned (m : PublishedMessage) : Prop where
  absent : m.sender = .caller ∨ m.sender = .reading ∨ m.sender = .producing ∨
    m.sender = .refused → m.queue = .absent
  present : m.sender = .accepted ∨ m.sender = .released → m.queue ≠ .absent
  pointer : m.pointer = true ↔ m.sender = .reading ∨ m.sender = .producing ∨
    m.sender = .accepted ∨ m.sender = .refused
  accept : .accept ∈ m.history ↔ m.queue ≠ .absent
  refuse : .refuse ∈ m.history ↔ m.queue = .absent ∧ (m.sender = .refused ∨ m.sender = .returned)
  report : .report ∈ m.history ↔
    m.queue = .reporting ∨ m.queue = .handling ∨ m.queue = .reported
  freeDrCb : .free .drCb ∈ m.history ↔ m.queue = .reported
  freePushMessage : .free .pushMessage ∈ m.history ↔ m.queue = .absent ∧ m.sender = .returned
  last : ∀ pre who post, m.history = pre ++ .free who :: post → post = []

theorem owned_construct : Owned construct := by
  refine ⟨by simp [construct], by simp [construct], by simp [construct], by simp [construct],
    by simp [construct], by simp [construct], by simp [construct], by simp [construct],
    fun pre who post h ↦ ?_⟩
  simp [construct] at h

/-- An entry for a message that was not freed may be a `free`: it is the last one. -/
theorem last_log (hfree : ∀ who, .free who ∉ m.history) (pre : List MessageEvent) (who : Releaser)
    (post : List MessageEvent) (h : m.history ++ [e] = pre ++ .free who :: post) : post = [] := by
  rcases List.eq_nil_or_concat' post with rfl | ⟨post, e', rfl⟩
  · rfl
  · have heq : m.history ++ [e] = (pre ++ .free who :: post) ++ [e'] := by simpa using h
    exact absurd (by simp [(List.append_inj' heq rfl).1]) (hfree who)

theorem Owned.not_free (h : Owned m) (hqueue : m.queue ≠ .reported)
    (hsender : m.queue = .absent → m.sender ≠ .returned) (who : Releaser) :
    .free who ∉ m.history := by
  cases who with
  | pushMessage =>
    rw [h.freePushMessage]
    exact fun hmem ↦ hsender hmem.1 hmem.2
  | drCb =>
    rw [h.freeDrCb]
    exact hqueue

/-- **The invariant is kept.**  A step that makes an entry is one on a message that was not freed,
which is what keeps a `free` the last entry. -/
theorem Owned.of_advance (h : Owned m) (hstep : advance m a = some m') : Owned m' := by
  have hnot := h.not_free
  obtain ⟨habsent, hpresent, hpointer, haccept, hrefuse, hreport, hfreeDrCb, hfreePushMessage,
    hlast⟩ := h
  cases a with
  | call | release =>
    -- no entry is made
    obtain ⟨hpoint, hm'⟩ := Option.ite_none_right_eq_some.mp hstep
    cases Option.some_inj.mp hm'
    refine ⟨?_, ?_, ?_, ?_, ?_, ?_, ?_, ?_, hlast⟩ <;> grind
  | readArguments | transmit | report | lookUp | callback | finish =>
    obtain ⟨hpoint, hm'⟩ := Option.ite_none_right_eq_some.mp hstep
    cases Option.some_inj.mp hm'
    refine ⟨?_, ?_, ?_, ?_, ?_, ?_, ?_, ?_, last_log (hnot ?_ ?_)⟩ <;> grind [log]
  | produce accepted =>
    obtain ⟨hpoint, hm'⟩ := Option.ite_none_right_eq_some.mp hstep
    cases Option.some_inj.mp hm'
    cases accepted with
    | true => refine ⟨?_, ?_, ?_, ?_, ?_, ?_, ?_, ?_, last_log (hnot ?_ ?_)⟩ <;> grind [log]
    | false => refine ⟨?_, ?_, ?_, ?_, ?_, ?_, ?_, ?_, last_log (hnot ?_ ?_)⟩ <;> grind [log]
  | ret =>
    -- the destructor frees what was not released
    obtain ⟨hpoint, hm'⟩ := Option.ite_none_right_eq_some.mp hstep
    cases Option.some_inj.mp hm'
    cases hnull : m.pointer with
    | true => refine ⟨?_, ?_, ?_, ?_, ?_, ?_, ?_, ?_, last_log (hnot ?_ ?_)⟩ <;> grind [log]
    | false => refine ⟨?_, ?_, ?_, ?_, ?_, ?_, ?_, ?_, hlast⟩ <;> grind

/-! ## The history -/

theorem entriesOf_concat (acts : List Action) (a : Action) :
    entriesOf (acts ++ [a]) = entriesOf acts ++ a.entries (entriesOf acts) := by
  rw [entriesOf, List.foldl_append]
  rfl

/-- An entry that every step of one kind makes, and no other step. -/
theorem mem_entriesOf (h : ∀ history a', e ∈ Action.entries history a' ↔ a' = a) :
    e ∈ entriesOf acts ↔ a ∈ acts := by
  induction acts using List.reverseRecOn with
  | nil => simp [entriesOf]
  | append_singleton acts a' ih =>
    rw [entriesOf_concat, List.mem_append, ih, h, List.mem_append, List.mem_singleton, eq_comm]

theorem accept_mem_entriesOf : .accept ∈ entriesOf acts ↔ .produce true ∈ acts :=
  mem_entriesOf fun history a ↦ by
    cases a <;> simp only [Action.entries] <;> grind

theorem refuse_mem_entriesOf : .refuse ∈ entriesOf acts ↔ .produce false ∈ acts :=
  mem_entriesOf fun history a ↦ by
    cases a <;> simp only [Action.entries] <;> grind

theorem report_mem_entriesOf : .report ∈ entriesOf acts ↔ .report ∈ acts :=
  mem_entriesOf fun history a ↦ by
    cases a <;> simp only [Action.entries] <;> grind

theorem freeDrCb_mem_entriesOf : .free .drCb ∈ entriesOf acts ↔ .finish ∈ acts :=
  mem_entriesOf fun history a ↦ by
    cases a <;> simp only [Action.entries] <;> grind

/-- What relates a message to the steps that were made with it. -/
structure Follows (acts : List Action) (m : PublishedMessage) : Prop where
  history : m.history = entriesOf acts
  returned : m.sender = .returned ↔ .ret ∈ acts

theorem follows_construct : Follows [] construct := ⟨rfl, by simp [construct]⟩

/-- **A step does to a message what it says.**  The destructor of `message` is the one step that
looks at the state: it frees a message that was refused, as the pointer shows. -/
theorem Follows.of_advance (h : Follows acts m) (hm : Owned m) (hstep : advance m a = some m') :
    Follows (acts ++ [a]) m' := by
  have hreturned := h.returned
  have hhistory : m'.history = m.history ++ a.entries m.history := by
    cases a with
    | call | release =>
      obtain ⟨-, hm'⟩ := Option.ite_none_right_eq_some.mp hstep
      cases Option.some_inj.mp hm'
      exact (List.append_nil _).symm
    | readArguments | transmit | report | lookUp | callback | finish =>
      obtain ⟨-, hm'⟩ := Option.ite_none_right_eq_some.mp hstep
      cases Option.some_inj.mp hm'
      rfl
    | produce accepted =>
      obtain ⟨-, hm'⟩ := Option.ite_none_right_eq_some.mp hstep
      cases Option.some_inj.mp hm'
      cases accepted <;> rfl
    | ret =>
      obtain ⟨hpoint, hm'⟩ := Option.ite_none_right_eq_some.mp hstep
      cases Option.some_inj.mp hm'
      have hrefuse : .refuse ∈ m.history ↔ m.pointer = true := by
        have hrefuse := hm.refuse
        have hpointer := hm.pointer
        have habsent := hm.absent
        have hpresent := hm.present
        grind
      simp only [Action.entries, hrefuse]
      cases m.pointer <;> simp [log]
  refine ⟨by rw [entriesOf_concat, hhistory, h.history], ?_⟩
  rw [List.mem_append, List.mem_singleton, ← hreturned]
  cases a with
  | produce accepted =>
    obtain ⟨hpoint, hm'⟩ := Option.ite_none_right_eq_some.mp hstep
    cases Option.some_inj.mp hm'
    cases accepted <;> simp [log, hpoint]
  | ret =>
    obtain ⟨hpoint, hm'⟩ := Option.ite_none_right_eq_some.mp hstep
    cases Option.some_inj.mp hm'
    split <;> simp [log]
  | _ =>
    obtain ⟨hpoint, hm'⟩ := Option.ite_none_right_eq_some.mp hstep
    cases Option.some_inj.mp hm'
    simp_all [log]

/-! ## One owner -/

/-- The history of a message is what the steps `acts` should do to it.  By that history the message
is freed at most once; not before its report if it was accepted; by `pushMessage`, and without a
report, if it was refused; and nothing reads it afterwards.  The owner is what the history says it
is. -/
structure OneOwner (acts : List Action) (m : PublishedMessage) : Prop where
  history : m.history = entriesOf acts
  freedOnce : m.history.countP isFree ≤ 1
  accepted : .produce true ∈ acts → .accept ∈ m.history ∧
    (∀ pre who post, m.history = pre ++ .free who :: post → .report ∈ pre ∧ who = .drCb) ∧
    (.report ∈ acts → .report ∈ m.history) ∧
    (.finish ∈ acts → .free .drCb ∈ m.history)
  refused : .produce false ∈ acts → .refuse ∈ m.history ∧
    .report ∉ acts ∧ .report ∉ m.history ∧
    (∀ who, .free who ∈ m.history → who = .pushMessage) ∧
    (.ret ∈ acts → .free .pushMessage ∈ m.history)
  noReadAfterFree : ∀ pre who post, m.history = pre ++ .free who :: post → .read ∉ post
  freed : m.owner = .freed ↔ ∃ who, .free who ∈ m.history
  queued : m.owner = .queue ↔ .accept ∈ m.history ∧ ∀ who, .free who ∉ m.history

theorem owner_eq_freed : m.owner = .freed ↔
    m.queue = .reported ∨ m.queue = .absent ∧ m.sender = .returned := by
  unfold owner
  split <;> simp_all

theorem owner_eq_queue : m.owner = .queue ↔ m.queue ≠ .absent ∧ m.queue ≠ .reported := by
  unfold owner
  split <;> simp_all

/-- What is always the last element of a list is in it at most once. -/
theorem countP_le_one_of_last {p : MessageEvent → Bool} {l : List MessageEvent}
    (h : ∀ pre x post, l = pre ++ x :: post → p x = true → post = []) : l.countP p ≤ 1 := by
  induction l with
  | nil => exact Nat.zero_le _
  | cons x l ih =>
    rcases hx : p x with _ | _
    · rw [List.countP_cons_of_neg (by simp [hx])]
      exact ih fun pre y post heq ↦ h (x :: pre) y post (by rw [heq, List.cons_append])
    · rw [h [] x l rfl hx, List.countP_cons_of_pos hx]
      exact Nat.le_refl _

theorem Owned.free_iff (h : Owned m) : (∃ who, .free who ∈ m.history) ↔ m.owner = .freed := by
  rw [owner_eq_freed, ← h.freeDrCb, ← h.freePushMessage]
  refine ⟨fun ⟨who, hmem⟩ ↦ ?_, fun hmem ↦ ?_⟩
  · cases who with
    | pushMessage => exact Or.inr hmem
    | drCb => exact Or.inl hmem
  · rcases hmem with hmem | hmem
    · exact ⟨_, hmem⟩
    · exact ⟨_, hmem⟩

/-- An accepted message is freed by `dr_cb` only. -/
theorem Owned.reported_of_free (h : Owned m) {who : Releaser} (haccept : .accept ∈ m.history)
    (hfree : .free who ∈ m.history) : m.queue = .reported := by
  rw [h.accept] at haccept
  cases who with
  | pushMessage => exact absurd (h.freePushMessage.mp hfree).1 haccept
  | drCb => exact h.freeDrCb.mp hfree

theorem Owned.oneOwner (h : Owned m) (hacts : Follows acts m) : OneOwner acts m := by
  refine ⟨hacts.history, ?_, fun haccepted ↦ ⟨?_, fun pre who post heq ↦ ?_, ?_, ?_⟩,
    fun hrefused ↦ ?_, fun pre who post heq ↦ ?_, h.free_iff.symm, ?_⟩
  · refine countP_le_one_of_last fun pre e post heq he ↦ ?_
    cases e with
    | free who => exact h.last pre who post heq
    | _ => cases he
  · rw [hacts.history]
    exact accept_mem_entriesOf.mpr haccepted
  · have haccept : .accept ∈ m.history := hacts.history ▸ accept_mem_entriesOf.mpr haccepted
    have hfree : .free who ∈ m.history := by simp [heq]
    have hqueue := h.reported_of_free haccept hfree
    have hreport := h.report.mpr (Or.inr (Or.inr hqueue))
    constructor
    · rw [heq, h.last pre who post heq] at hreport
      simpa using hreport
    · cases who with
      | drCb => rfl
      | pushMessage => cases hqueue.symm.trans (h.freePushMessage.mp hfree).1
  · rw [hacts.history]
    exact report_mem_entriesOf.mpr
  · rw [hacts.history]
    exact freeDrCb_mem_entriesOf.mpr
  · have hrefuse : .refuse ∈ m.history := hacts.history ▸ refuse_mem_entriesOf.mpr hrefused
    have habsent := (h.refuse.mp hrefuse).1
    have hreport : .report ∉ m.history := by
      rw [h.report, habsent]
      simp
    refine ⟨hrefuse, ?_, hreport, fun who hfree ↦ ?_, fun hret ↦ ?_⟩
    · rwa [hacts.history, report_mem_entriesOf] at hreport
    · cases who with
      | pushMessage => rfl
      | drCb => cases habsent.symm.trans (h.freeDrCb.mp hfree)
    · exact h.freePushMessage.mpr ⟨habsent, hacts.returned.mpr hret⟩
  · simp [h.last pre who post heq]
  · rw [owner_eq_queue, ← h.accept]
    refine and_congr_right fun haccept ↦ ⟨fun hqueue who hfree ↦ ?_, fun hfree hqueue ↦ ?_⟩
    · exact hqueue (h.reported_of_free haccept hfree)
    · exact hfree .drCb (h.freeDrCb.mpr hqueue)

/-- **What holds of a message after any steps of its own.** -/
theorem oneOwner_of_run_advance (h : run advance construct acts = some m) : OneOwner acts m := by
  have hboth : Owned m ∧ Follows acts m :=
    run_induction (P := fun acts m ↦ Owned m ∧ Follows acts m)
      ⟨owned_construct, follows_construct⟩
      (fun _ _ _ _ _ hm hstep ↦ ⟨hm.1.of_advance hstep, hm.2.of_advance hm.1 hstep⟩) h
  exact hboth.1.oneOwner hboth.2

variable {ι : Type u} [DecidableEq ι] {steps : List (ι × Action)}
  {messages : ι → PublishedMessage}

/-- **A published message has exactly one owner**, however many are published, and whatever the
order of acceptances, refusals, reports and releases. -/
theorem oneOwner_of_run (h : run (each advance) (fun _ ↦ construct) steps = some messages) (i : ι) :
    OneOwner (actsOf i steps) (messages i) :=
  oneOwner_of_run_advance (run_each h i)

/-- Two messages.  The report of the first one comes before `release`, the second one is refused. -/
def twoMessages : List (Bool × Action) :=
  [(false, .call), (true, .call), (false, .readArguments), (false, .produce true),
    (true, .readArguments), (false, .transmit), (false, .report), (true, .produce false),
    (false, .lookUp), (false, .callback), (false, .finish), (true, .ret), (false, .release),
    (false, .ret)]

/-- The first message is freed by `dr_cb`, and the second one by `pushMessage`. -/
theorem oneOwner_of_run_two :
    ∃ messages, run (each advance) (fun _ ↦ construct) twoMessages = some messages ∧
      OneOwner [.call, .readArguments, .produce true, .transmit, .report, .lookUp, .callback,
        .finish, .release, .ret] (messages false) ∧
      OneOwner [.call, .readArguments, .produce false, .ret] (messages true) ∧
      (messages false).history =
        [.read, .accept, .read, .report, .read, .read, .free .drCb] ∧
      (messages true).history = [.read, .refuse, .free .pushMessage] := by
  obtain ⟨messages, hrun, hfirst, hsecond⟩ : ∃ messages,
      run (each advance) (fun _ ↦ construct) twoMessages = some messages ∧
      (messages false).history =
        [.read, .accept, .read, .report, .read, .read, .free .drCb] ∧
      (messages true).history = [.read, .refuse, .free .pushMessage] :=
    ⟨_, rfl, rfl, rfl⟩
  exact ⟨messages, hrun, oneOwner_of_run hrun false, oneOwner_of_run hrun true, hfirst, hsecond⟩

end PublishedMessage

end Ekg
