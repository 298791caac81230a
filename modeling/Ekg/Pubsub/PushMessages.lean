import Ekg.Pubsub.RDKafkaPublisher

/-!
# Publishing in bulk

`RDKafkaPublisher::pushMessages` takes the messages of a vector one after the other, erases those
that the producer has accepted, and stops with -1 at the first one that is refused.  The rest is
still in the vector, for another call.

It calls `pushMessage(std::move(*message))`, whose parameter is a unique pointer by value.  The
message has left the vector before it is known whether the producer takes it: if it does not, the
pointer in the vector is null, and `pushMessage` has freed the message when it returns.  The next
call of `pushMessages` begins with that null pointer, and `pushMessage` dereferences it.

Whether the producer accepts a message is up to the world: `accepts i` is the outcome of the call
of `produce` with the number `i`.
-/

set_option autoImplicit false

namespace Ekg

/-- The producer, by the calls of `produce`. -/
structure ProduceLog where
  /-- How many calls there were. -/
  calls : ℕ
  /-- The messages that were accepted. -/
  queue : List PublishMessage
  deriving DecidableEq, Repr

namespace ProduceLog

variable (accepts : ℕ → Bool)

/-- `Producer::produce`: the new producer, and whether the message was accepted. -/
def produce (message : PublishMessage) (p : ProduceLog) : ProduceLog × Bool :=
  if accepts p.calls then ({ calls := p.calls + 1, queue := p.queue ++ [message] }, true)
  else ({ p with calls := p.calls + 1 }, false)

/-- `RDKafkaPublisher::pushMessage` of a pointer, which it dereferences: there is no result if it is
null. -/
def pushMessage (message : Option PublishMessage) (p : ProduceLog) : Option (ProduceLog × ℤ) :=
  message.map fun message ↦
    let resp := produce accepts message p
    (resp.1, if resp.2 then 0 else -1)

/-- `RDKafkaPublisher::pushMessages`: the producer, the vector and the code. -/
def pushMessages : List (Option PublishMessage) → ProduceLog →
    Option (ProduceLog × List (Option PublishMessage) × ℤ)
  | [], p => some (p, [], 0)
  | message :: rest, p =>
    (pushMessage accepts message p).bind fun r ↦
      if r.2 = 0 then pushMessages rest r.1
      -- `std::move` has left a null pointer
      else some (r.1, none :: rest, -1)

/-- Call `pushMessages`, and call it again until it returns 0, up to `retries` times. -/
def pushUntilDone : ℕ → List (Option PublishMessage) → ProduceLog →
    Option (ProduceLog × List (Option PublishMessage) × ℤ)
  | 0, messages, p => pushMessages accepts messages p
  | retries + 1, messages, p =>
    (pushMessages accepts messages p).bind fun r ↦
      if r.2.2 = 0 then some r else pushUntilDone retries r.2.1 r.1

/-- The producer of `RDKafkaPublisher` is one that refuses what it has no room for. -/
theorem pushMessage_code {publisher : RDKafkaPublisher} {message : PublishMessage}
    {p : ProduceLog} (h : accepts p.calls =
      decide (publisher.producer.outqLen < publisher.producer.capacity)) :
    (pushMessage accepts (some message) p).map Prod.snd =
      some (publisher.pushMessage message).2 := by
  rcases publisher.producer.produce_cases message with ⟨hlt, hproduce, -⟩ | ⟨heq, hproduce, -⟩
  · simp [pushMessage, produce, RDKafkaPublisher.pushMessage, h, hlt, hproduce]
  · simp [pushMessage, produce, RDKafkaPublisher.pushMessage, h, heq, hproduce]

/-! ## One call -/

variable {accepts} {messages : List PublishMessage} {p : ProduceLog}

/-- No message is refused by the call. -/
def AllAccepted (accepts : ℕ → Bool) (messages : List PublishMessage) (p : ProduceLog) : Prop :=
  ∀ i < messages.length, accepts (p.calls + i) = true

theorem allAccepted_cons {message : PublishMessage} :
    AllAccepted accepts (message :: messages) p ↔ accepts p.calls = true ∧
      AllAccepted accepts messages { calls := p.calls + 1, queue := p.queue ++ [message] } := by
  simp only [AllAccepted, List.length_cons]
  refine ⟨fun h ↦ ⟨h 0 (Nat.succ_pos _), fun i hi ↦ ?_⟩, fun ⟨hfirst, hrest⟩ i hi ↦ ?_⟩
  · rw [Nat.add_right_comm]
    exact h (i + 1) (Nat.succ_lt_succ hi)
  · rcases i with _ | i
    · exact hfirst
    · rw [← Nat.add_assoc, Nat.add_right_comm]
      exact hrest i (Nat.lt_of_succ_lt_succ hi)

theorem pushMessages_of_accepts {message : PublishMessage} {rest : List (Option PublishMessage)}
    (h : accepts p.calls = true) :
    pushMessages accepts (some message :: rest) p =
      pushMessages accepts rest { calls := p.calls + 1, queue := p.queue ++ [message] } := by
  simp [pushMessages, pushMessage, produce, h]

theorem pushMessages_of_not_accepts {message : PublishMessage}
    {rest : List (Option PublishMessage)} (h : accepts p.calls = false) :
    pushMessages accepts (some message :: rest) p =
      some ({ p with calls := p.calls + 1 }, none :: rest, -1) := by
  simp [pushMessages, pushMessage, produce, h]

/-- The vector as `pushMessages` leaves it when it stops cannot be passed to it again. -/
theorem pushMessages_null (rest : List (Option PublishMessage)) :
    pushMessages accepts (none :: rest) p = none := rfl

/-- A call that meets no refusal empties the vector. -/
theorem pushMessages_of_allAccepted (h : AllAccepted accepts messages p) :
    pushMessages accepts (messages.map some) p =
      some ({ calls := p.calls + messages.length, queue := p.queue ++ messages }, [], 0) := by
  induction messages generalizing p with
  | nil => simp [pushMessages]
  | cons message rest ih =>
    obtain ⟨hfirst, hrest⟩ := allAccepted_cons.mp h
    rw [List.map_cons, pushMessages_of_accepts hfirst, ih hrest]
    simp [Nat.add_assoc, Nat.add_comm 1]

/-- A call that meets a refusal leaves a null pointer where the refused message was. -/
theorem pushMessages_of_refused (h : ¬ AllAccepted accepts messages p) :
    ∃ k, k < messages.length ∧ pushMessages accepts (messages.map some) p =
      some ({ calls := p.calls + k + 1, queue := p.queue ++ messages.take k },
        none :: (messages.drop (k + 1)).map some, -1) := by
  induction messages generalizing p with
  | nil => exact absurd (fun i hi ↦ absurd hi (Nat.not_lt_zero i)) h
  | cons message rest ih =>
    rw [allAccepted_cons, not_and] at h
    rcases hfirst : accepts p.calls with _ | _
    · refine ⟨0, Nat.succ_pos _, ?_⟩
      rw [List.map_cons, pushMessages_of_not_accepts hfirst]
      simp
    · obtain ⟨k, hk, hpush⟩ := ih (h hfirst)
      refine ⟨k + 1, Nat.succ_lt_succ hk, ?_⟩
      rw [List.map_cons, pushMessages_of_accepts hfirst, hpush]
      simp [Nat.add_assoc, Nat.add_comm 1]

/-! ## Retries -/

/-- A call that is stopped can be made again: the vector holds what was not accepted, no pointer is
null, and however often it takes, every message is handed to the queue once, in order. -/
structure Retriable (accepts : ℕ → Bool) (messages : List PublishMessage) (p : ProduceLog) :
    Prop where
  remaining : ∀ p' messages', pushMessages accepts (messages.map some) p =
    some (p', messages', -1) → ∃ k, k < messages.length ∧
      p'.queue = p.queue ++ messages.take k ∧ messages' = (messages.drop k).map some
  retries : ∀ retries, ∃ p' messages' code,
    pushUntilDone accepts retries (messages.map some) p = some (p', messages', code) ∧
      (code = 0 → p'.queue = p.queue ++ messages)

theorem pushUntilDone_of_allAccepted (h : AllAccepted accepts messages p) (retries : ℕ) :
    pushUntilDone accepts retries (messages.map some) p =
      some ({ calls := p.calls + messages.length, queue := p.queue ++ messages }, [], 0) := by
  cases retries with
  | zero => exact pushMessages_of_allAccepted h
  | succ retries => simp [pushUntilDone, pushMessages_of_allAccepted h]

/-- **When a bulk publish can be retried**: when there is nothing to be retried.  After a refusal
there is a null pointer in the vector where the refused message should be, so the vector does not
hold what remains. -/
theorem retriable_iff : Retriable accepts messages p ↔ AllAccepted accepts messages p := by
  refine ⟨fun hretriable ↦ ?_, fun h ↦ ⟨fun p' messages' hpush ↦ ?_, fun retries ↦ ?_⟩⟩
  · by_contra h
    obtain ⟨k, -, hpush⟩ := pushMessages_of_refused h
    obtain ⟨l, hl, -, heq⟩ := hretriable.remaining _ _ hpush
    rw [List.drop_eq_getElem_cons hl, List.map_cons] at heq
    exact Option.some_ne_none _ (List.cons.inj heq).1.symm
  · rw [pushMessages_of_allAccepted h] at hpush
    simp at hpush
  · exact ⟨_, _, _, pushUntilDone_of_allAccepted h retries, fun _ ↦ rfl⟩

/-- A queue that is full at the second of two messages: the second message is not in the vector, and
the next call dereferences a null pointer. -/
theorem not_retriable :
    ¬ Retriable (fun i ↦ i != 1) [⟨"", "a", "q", "1"⟩, ⟨"", "b", "q", "2"⟩] ⟨0, []⟩ := by
  intro h
  obtain ⟨p', messages', code, hpush, -⟩ := h.retries 1
  exact Option.some_ne_none _ (hpush.symm.trans rfl)

/-- After a refusal, the next call has no result at all. -/
theorem pushUntilDone_of_refused (h : ¬ AllAccepted accepts messages p) (retries : ℕ) :
    pushUntilDone accepts (retries + 1) (messages.map some) p = none := by
  obtain ⟨k, -, hpush⟩ := pushMessages_of_refused h
  simp only [pushUntilDone, hpush, Option.bind_some]
  rw [if_neg (by decide)]
  cases retries with
  | zero => exact pushMessages_null _
  | succ retries => rw [pushUntilDone, pushMessages_null, Option.bind_none]

end ProduceLog

end Ekg
