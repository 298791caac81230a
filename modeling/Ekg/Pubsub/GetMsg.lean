import Ekg.Lib.Steps
import Ekg.Pubsub.RDKafkaSubscriber

/-!
# Fetching messages

`RDKafkaSubscriber::getMsg` calls `consume` until the vector holds as many messages as were asked
for, or a call comes back with a time-out or an error, or the deadline has passed when it looks at
the clock.  What the calls come back with, and when, is up to the world: a run of the loop is a run
over a list of `Consumed`, and `getMsg` has a result for the lists that it takes to come to its end.

`getMsg_messages` says that no message is lost on any of the ways out, and none invented.
`reportsErrors_iff` says when an error is reported: unless it is the first thing that happens.
-/

set_option autoImplicit false

namespace Ekg

open Steps

/-- `RdKafka::ErrorCode`, as far as `getMsg` tells the codes apart. -/
inductive ErrorCode
  | noError | partitionEof | timedOut | timedOutQueue
  | other (code : ℕ)
  deriving DecidableEq, Repr

/-- `RdKafka::Message`, as far as `getMsg` looks at it. -/
structure RdKafkaMessage where
  err : ErrorCode
  /-- The key, unless the pointer to it is null. -/
  key : Option String
  payload : List UInt8
  deriving DecidableEq, Repr

/-- A call of `consume`: what it comes back with, and when. -/
structure Consumed where
  /-- The clock when the call is made, in nanoseconds. -/
  called : ℤ
  /-- The message, unless the pointer to it is null. -/
  message : Option RdKafkaMessage
  /-- The clock when the loop looks at it, in nanoseconds. -/
  clock : ℤ
  deriving DecidableEq, Repr

/-- `RDKafkaSubscriber::internalConsume`: a copy of the message. -/
def internalConsume (msg : RdKafkaMessage) (messages : List SubscriberInterfaceElement) :
    List SubscriberInterfaceElement :=
  messages ++ [{ key := msg.key.getD "default-key", data := msg.payload }]

/-- The variables of `getMsg`. -/
structure GetMsgLoop where
  messages : List SubscriberInterfaceElement
  err : ErrorCode
  looping : Bool
  /-- `timeout_ms`, a number of microseconds. -/
  timeoutMs : ℤ
  /-- `end`, in nanoseconds. -/
  deadline : ℤ
  /-- The loop was left by the `break` behind the look at the clock. -/
  late : Bool
  deriving DecidableEq, Repr

namespace GetMsgLoop

/-- Before the loop. -/
def start (messages : List SubscriberInterfaceElement) (timeo : UInt32) (now : ℤ) : GetMsgLoop where
  messages := messages
  err := .noError
  looping := true
  timeoutMs := timeo.toNat
  deadline := now + timeo.toNat * 1000
  late := false

/-- The `switch`. -/
def handle (msg : RdKafkaMessage) (s : GetMsgLoop) : GetMsgLoop :=
  match msg.err with
  | .partitionEof => if s.messages.length > 0 then { s with timeoutMs := 1 } else s
  | .noError => { s with messages := internalConsume msg s.messages }
  | .timedOut => { s with err := .noError, looping := false }
  | .timedOutQueue => { s with err := .noError, looping := false }
  | .other _ =>
    { s with err := if s.messages.length ≠ 0 then msg.err else s.err, looping := false }

/-- The look at the clock. -/
def checkDeadline (clock : ℤ) (s : GetMsgLoop) : GetMsgLoop :=
  let difference := s.deadline - clock
  if difference < 0 then { s with late := true } else s

/-- The loop goes on, with a call of `consume`. -/
def running (mNum : UInt32) (s : GetMsgLoop) : Bool :=
  decide (s.messages.length < mNum.toNat) && s.looping && !s.late

/-- The timeout of the call: `(int)timeout_ms.count()`. -/
def consumeTimeout (s : GetMsgLoop) : Int32 := Int32.ofInt s.timeoutMs

/-- One pass of the loop. -/
def step (mNum : UInt32) (s : GetMsgLoop) (c : Consumed) : Option GetMsgLoop :=
  if s.running mNum then
    some (match c.message with
      -- `continue`, past the look at the clock
      | none => s
      | some msg => (s.handle msg).checkDeadline c.clock)
  else none

/-- What `getMsg` returns. -/
def code (s : GetMsgLoop) : ℤ := if s.err ≠ .noError then -1 else 0

/-- `RDKafkaSubscriber::getMsg`, if it is through when its calls of `consume` have come back with
`consumed`: the code, and the vector. -/
def getMsg (messages : List SubscriberInterfaceElement) (mNum timeo : UInt32) (now : ℤ)
    (consumed : List Consumed) : Option (ℤ × List SubscriberInterfaceElement) :=
  (run (step mNum) (start messages timeo now) consumed).bind fun s ↦
    if s.running mNum then none else some (s.code, s.messages)

end GetMsgLoop

/-! ## One pass -/

/-- The element that a call of `consume` is good for, if it is good for one. -/
def Consumed.received (c : Consumed) : Option SubscriberInterfaceElement :=
  match c.message with
  | some ⟨.noError, key, payload⟩ => some { key := key.getD "default-key", data := payload }
  | _ => none

/-- The call has come back with an error. -/
def Consumed.isError (c : Consumed) : Bool :=
  match c.message with
  | some ⟨.other _, _, _⟩ => true
  | _ => false

/-- The call has come to the end of a partition. -/
def Consumed.isEof (c : Consumed) : Bool :=
  match c.message with
  | some ⟨.partitionEof, _, _⟩ => true
  | _ => false

/-- The last of the calls has come back with an error. -/
def EndedByError (consumed : List Consumed) : Prop := ∃ c ∈ consumed.getLast?, c.isError = true

theorem received_of_isError {c : Consumed} (h : c.isError = true) : c.received = none := by
  obtain ⟨_, message, _⟩ := c
  rcases message with _ | ⟨err, _, _⟩
  · cases h
  · cases err with
    | other code => rfl
    | _ => cases h

@[simp] theorem endedByError_concat {consumed : List Consumed} {c : Consumed} :
    EndedByError (consumed ++ [c]) ↔ c.isError = true := by
  simp [EndedByError]

namespace GetMsgLoop

variable {messages messages' : List SubscriberInterfaceElement} {mNum timeo : UInt32} {now code : ℤ}
  {consumed : List Consumed} {s t : GetMsgLoop} {c : Consumed}

theorem running_eq_true :
    s.running mNum = true ↔
      s.messages.length < mNum.toNat ∧ s.looping = true ∧ s.late = false := by
  simp [running, and_assoc]

/-- The look at the clock changes nothing but whether the loop goes on. -/
theorem checkDeadline_eq (clock : ℤ) :
    s.checkDeadline clock = { s with late := s.late || decide (s.deadline < clock) } := by
  by_cases h : s.deadline < clock
  · have hdiff : s.deadline - clock < 0 := by omega
    simp only [checkDeadline, if_pos hdiff, h, decide_true, Bool.or_true]
  · have hdiff : ¬ s.deadline - clock < 0 := by omega
    simp only [checkDeadline, if_neg hdiff, h, decide_false, Bool.or_false]

/-- The end of a partition is the only outcome that changes the timeout. -/
theorem handle_partitionEof (key : Option String) (payload : List UInt8) :
    s.handle ⟨.partitionEof, key, payload⟩ =
      { s with timeoutMs := if s.messages ≠ [] then 1 else s.timeoutMs } := by
  obtain ⟨messages, _⟩ := s
  cases messages <;> simp [handle]

/-- What one pass does to the variables. -/
structure StepSpec (mNum : UInt32) (s : GetMsgLoop) (c : Consumed) (t : GetMsgLoop) : Prop where
  running : s.running mNum = true
  messages : t.messages = s.messages ++ c.received.toList
  err : s.err = .noError → (t.err ≠ .noError ↔ c.isError = true ∧ s.messages ≠ [])
  looping : t.looping = true → c.isError = false
  timeoutMs : t.timeoutMs = if c.isEof = true ∧ s.messages ≠ [] then 1 else s.timeoutMs
  deadline : t.deadline = s.deadline

theorem stepSpec (h : step mNum s c = some t) : StepSpec mNum s c t := by
  unfold step at h
  split at h
  · rename_i hrunning
    obtain ⟨called, message, clock⟩ := c
    cases Option.some_inj.mp h
    cases message with
    | none =>
      refine ⟨hrunning, ?_, fun herr ↦ ?_, fun _ ↦ rfl, rfl, rfl⟩
      · simp [Consumed.received]
      · simp [herr, Consumed.isError]
    | some msg =>
      simp only [checkDeadline_eq]
      obtain ⟨err, key, payload⟩ := msg
      cases err with
      | noError =>
        refine ⟨hrunning, rfl, fun herr ↦ ?_, fun _ ↦ rfl, rfl, rfl⟩
        simp [handle, herr, Consumed.isError]
      | partitionEof =>
        rw [handle_partitionEof]
        refine ⟨hrunning, ?_, fun herr ↦ ?_, fun _ ↦ rfl, ?_, rfl⟩
        · simp [Consumed.received]
        · simp [herr, Consumed.isError]
        · simp [Consumed.isEof]
      | timedOut =>
        refine ⟨hrunning, ?_, fun _ ↦ ?_, fun _ ↦ rfl, rfl, rfl⟩
        · simp [handle, Consumed.received]
        · simp [handle, Consumed.isError]
      | timedOutQueue =>
        refine ⟨hrunning, ?_, fun _ ↦ ?_, fun _ ↦ rfl, rfl, rfl⟩
        · simp [handle, Consumed.received]
        · simp [handle, Consumed.isError]
      | other code =>
        refine ⟨hrunning, ?_, fun herr ↦ ?_, fun hlooping ↦ ?_, rfl, rfl⟩
        · simp [handle, Consumed.received]
        · simp [handle, herr, Consumed.isError]
        · simp [handle] at hlooping
  · cases h

/-! ## A run of the loop -/

/-- What the vector is when the calls have come back with `consumed`. -/
theorem messages_of_run (h : run (step mNum) (start messages timeo now) consumed = some t) :
    t.messages = messages ++ consumed.filterMap Consumed.received := by
  refine run_induction
    (P := fun consumed t ↦ t.messages = messages ++ consumed.filterMap Consumed.received)
    (by simp [start]) (fun done c m t _ hm hstep ↦ ?_) h
  rw [(stepSpec hstep).messages, hm, List.filterMap_append, List.append_assoc]
  cases hreceived : c.received <;> simp [hreceived]

theorem length_messages_le_of_run
    (h : run (step mNum) (start messages timeo now) consumed = some t) :
    t.messages.length ≤ max mNum.toNat messages.length := by
  refine run_invariant (P := fun t ↦ t.messages.length ≤ max mNum.toNat messages.length)
    (fun m c t hstep _ ↦ ?_) h (Nat.le_max_right _ _)
  have hlt := (running_eq_true.mp (stepSpec hstep).running).1
  have hone : c.received.toList.length ≤ 1 := by cases c.received <;> simp
  rw [(stepSpec hstep).messages, List.length_append]
  omega

/-- A run that goes on has met no error. -/
theorem err_of_run (h : run (step mNum) (start messages timeo now) consumed = some t)
    (hlooping : t.looping = true) : t.err = .noError := by
  refine run_invariant (P := fun t ↦ t.looping = true → t.err = .noError)
    (fun m c t hstep hm hlooping ↦ ?_) h (fun _ ↦ rfl) hlooping
  have hspec := stepSpec hstep
  have herr := hm (running_eq_true.mp hspec.running).2.1
  by_contra hne
  exact absurd ((hspec.err herr).mp hne).1 (by simp [hspec.looping hlooping])

theorem getMsg_eq_some {r : ℤ × List SubscriberInterfaceElement} :
    getMsg messages mNum timeo now consumed = some r ↔
      ∃ t, run (step mNum) (start messages timeo now) consumed = some t ∧
        t.running mNum = false ∧ (t.code, t.messages) = r := by
  simp only [getMsg, Option.bind_eq_some_iff]
  refine exists_congr fun t ↦ and_congr_right fun _ ↦ ?_
  cases t.running mNum <;> simp

/-- **`getMsg` neither loses nor invents messages**: on all the ways out, the vector is what it was
and then the messages that the calls of `consume` have come back with, and there are not more of
them than were asked for. -/
theorem getMsg_messages (h : getMsg messages mNum timeo now consumed = some (code, messages')) :
    messages' = messages ++ consumed.filterMap Consumed.received ∧
      messages'.length ≤ max mNum.toNat messages.length := by
  obtain ⟨t, hrun, -, heq⟩ := getMsg_eq_some.mp h
  obtain rfl : t.messages = messages' := congrArg Prod.snd heq
  exact ⟨messages_of_run hrun, length_messages_le_of_run hrun⟩

/-- Two messages, the end of the partition between them, and the error after them: the messages are
in the vector. -/
theorem getMsg_messages_error :
    let consumed : List Consumed :=
      [⟨0, some ⟨.noError, some "k", [1, 2]⟩, 1⟩, ⟨1, some ⟨.partitionEof, none, []⟩, 2⟩,
        ⟨2, some ⟨.noError, none, [3]⟩, 3⟩, ⟨3, some ⟨.other 1, none, []⟩, 4⟩]
    let messages' : List SubscriberInterfaceElement :=
      [⟨"a", []⟩, ⟨"k", [1, 2]⟩, ⟨"default-key", [3]⟩]
    getMsg [⟨"a", []⟩] 5 1000 0 consumed = some (-1, messages') ∧
      messages' = [⟨"a", []⟩] ++ consumed.filterMap Consumed.received ∧
      messages'.length ≤ max (5 : UInt32).toNat 1 := by
  intro consumed messages'
  have hrun : getMsg [⟨"a", []⟩] 5 1000 0 consumed = some (-1, messages') := by decide
  exact ⟨hrun, getMsg_messages hrun⟩

/-- The result of a call on an empty vector is what `fetched` stands for in
`RDKafkaSubscriber.getMsg`: the position of the consumer has moved past these messages, and no
others. -/
theorem position_getMsg (h : getMsg [] mNum timeo now consumed = some (code, messages'))
    (subscriber : RDKafkaSubscriber) :
    (subscriber.getMsg messages').1.position =
        subscriber.position + (consumed.filterMap Consumed.received).length ∧
      (subscriber.getMsg messages').2 = consumed.filterMap Consumed.received := by
  obtain ⟨t, hrun, -, heq⟩ := getMsg_eq_some.mp h
  obtain rfl : t.messages = messages' := congrArg Prod.snd heq
  rw [messages_of_run hrun, List.nil_append]
  exact ⟨rfl, rfl⟩

/-! ## The code

An error sets `err` only if the vector holds a message. -/

theorem code_ne_zero : s.code ≠ 0 ↔ s.err ≠ .noError := by
  unfold GetMsgLoop.code
  split <;> simp_all

/-- The error that ends the loop makes `getMsg` fail if the vector is not empty by then. -/
theorem code_ne_zero_of_run
    (h : run (step mNum) (start messages timeo now) consumed = some t) :
    t.code ≠ 0 ↔ EndedByError consumed ∧ messages ++ consumed.filterMap Consumed.received ≠ [] := by
  rw [code_ne_zero]
  rcases List.eq_nil_or_concat' consumed with rfl | ⟨done, c, rfl⟩
  · cases Option.some_inj.mp h
    simp [start, EndedByError]
  · obtain ⟨m, hm, hstep⟩ := run_concat_eq_some.mp h
    have hspec := stepSpec hstep
    have herr := err_of_run hm (running_eq_true.mp hspec.running).2.1
    rw [hspec.err herr, endedByError_concat, messages_of_run hm]
    refine and_congr_right fun hc ↦ ?_
    rw [List.filterMap_append, List.filterMap_cons_none (received_of_isError hc),
      List.filterMap_nil, List.append_nil]

/-- **When `getMsg` reports the consumer's errors**: exactly when the error that ends the loop, if
one does, does not come while the vector is still empty. -/
theorem reportsErrors_iff (h : getMsg messages mNum timeo now consumed = some (code, messages')) :
    (code ≠ 0 ↔ EndedByError consumed) ↔
      (EndedByError consumed → messages ≠ [] ∨ ∃ c ∈ consumed, c.received ≠ none) := by
  obtain ⟨t, hrun, -, heq⟩ := getMsg_eq_some.mp h
  obtain rfl : t.code = code := congrArg Prod.fst heq
  rw [code_ne_zero_of_run hrun, and_iff_left_iff_imp, ne_eq, List.append_eq_nil_iff,
    List.filterMap_eq_nil_iff]
  simp only [not_and_or, not_forall, exists_prop, ne_eq]

/-- Nothing but a message, and that is what is asked for: no error, and none is reported. -/
theorem reportsErrors_iff_one :
    let consumed : List Consumed := [⟨0, some ⟨.noError, none, [1]⟩, 1⟩]
    getMsg [] 1 1000 0 consumed = some (0, [⟨"default-key", [1]⟩]) ∧
      (((0 : ℤ) ≠ 0 ↔ EndedByError consumed) ↔
        (EndedByError consumed → ([] : List SubscriberInterfaceElement) ≠ [] ∨
          ∃ c ∈ consumed, c.received ≠ none)) := by
  intro consumed
  have hrun : getMsg [] 1 1000 0 consumed = some (0, [⟨"default-key", [1]⟩]) := by decide
  exact ⟨hrun, reportsErrors_iff hrun⟩

/-- An error that comes first: `getMsg` is through, and says that all is well. -/
theorem not_reportsErrors :
    ¬ ∀ code messages', getMsg [] 1 1000 0 [⟨0, some ⟨.other 1, none, []⟩, 1⟩] =
        some (code, messages') →
      (code ≠ 0 ↔ EndedByError [⟨0, some ⟨.other 1, none, []⟩, 1⟩]) := by
  intro h
  exact (h 0 [] (by decide)).mpr (by simp [EndedByError, Consumed.isError]) rfl

end GetMsgLoop

end Ekg
