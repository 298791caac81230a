import Ekg.Pubsub.IPublisher

/-!
# The Kafka publisher

`produce` puts a message into the queue of the producer, which has room for a fixed number of
messages.  The slot of a message is not free again when the broker has acknowledged it: it is free
when the application has been told so, which happens inside a call of `poll`.

The application calls `poll` in one place, the loop of `autoPoll`, and that loop runs on a thread
of its own.  `init` starts the thread if `_auto_poll` is set.  The constructor clears `_auto_poll`
and then calls `init`, so no publisher ever has the thread, and `setAutoPoll` comes too late.
-/

set_option autoImplicit false

namespace Ekg

/-- A message in the queue of the producer. -/
structure QueuedMessage where
  message : PublishMessage
  /-- The broker has acknowledged the message: its delivery report waits to be served. -/
  acknowledged : Bool := false
  deriving DecidableEq, Repr

/-- `RdKafka::Producer`. -/
structure Producer where
  /-- How many messages the queue can hold. -/
  capacity : ℕ
  /-- The queue. -/
  outq : List QueuedMessage
  /-- The queue never holds more. -/
  outq_le : outq.length ≤ capacity

namespace Producer

/-- `Producer::create`. -/
def create (capacity : ℕ) : Producer where
  capacity := capacity
  outq := []
  outq_le := Nat.zero_le capacity

/-- `Producer::produce`: the new producer, and whether the message was accepted. -/
def produce (message : PublishMessage) (p : Producer) : Producer × Bool :=
  if h : p.outq.length < p.capacity then
    ({ p with
        outq := p.outq ++ [{ message }]
        outq_le := by simpa using Nat.succ_le_of_lt h }, true)
  else (p, false)

/-- The broker acknowledges every message of the queue. -/
def acknowledge (p : Producer) : Producer :=
  { p with
    outq := p.outq.map fun m ↦ { m with acknowledged := true }
    outq_le := by simpa using p.outq_le }

/-- `Producer::poll`: the reports that wait are served, and their slots are free. -/
def poll (p : Producer) : Producer :=
  { p with
    outq := p.outq.filter fun m ↦ !m.acknowledged
    outq_le := Nat.le_trans (List.length_filter_le _ _) p.outq_le }

/-- `outq_len`. -/
def outqLen (p : Producer) : ℕ := p.outq.length

@[simp] theorem outqLen_acknowledge (p : Producer) : p.acknowledge.outqLen = p.outqLen := by
  simp [outqLen, acknowledge]

/-- A message takes a slot, or there is none and it is refused. -/
theorem produce_cases (message : PublishMessage) (p : Producer) :
    (p.outqLen < p.capacity ∧ (p.produce message).2 = true ∧
      (p.produce message).1.outqLen = p.outqLen + 1 ∧
      (p.produce message).1.capacity = p.capacity) ∨
    (p.outqLen = p.capacity ∧ (p.produce message).2 = false ∧ (p.produce message).1 = p) := by
  by_cases h : p.outq.length < p.capacity
  · left
    simp [produce, h, outqLen]
  · right
    simp only [produce, h, dif_neg, not_false_iff, outqLen, and_true]
    exact Nat.le_antisymm p.outq_le (Nat.le_of_not_lt h)

end Producer

/-- `RDKafkaPublisher`. -/
structure RDKafkaPublisher where
  /-- `_stop_inner_thread`. -/
  stopInnerThread : Bool
  /-- `_auto_poll`. -/
  autoPoll : Bool
  /-- `auto_poll_thread` is running. -/
  autoPollThread : Bool := false
  /-- `producer`. -/
  producer : Producer

namespace RDKafkaPublisher

/-- `RDKafkaPublisher::init`. -/
def init (p : RDKafkaPublisher) : RDKafkaPublisher :=
  if p.autoPoll then { p with autoPollThread := true } else p

/-- The constructor. -/
def construct (capacity : ℕ) : RDKafkaPublisher :=
  init { stopInnerThread := false, autoPoll := false, producer := .create capacity }

/-- The broker acknowledges every message of the queue. -/
def acknowledge (p : RDKafkaPublisher) : RDKafkaPublisher :=
  { p with producer := p.producer.acknowledge }

/-- The poll thread, if there is one, goes once round the loop of `flush`. -/
def autoPollOnce (p : RDKafkaPublisher) : Option RDKafkaPublisher :=
  if p.autoPollThread && !p.stopInnerThread then
    some (if p.producer.outqLen > 0 then { p with producer := p.producer.poll } else p)
  else none

/-- `RDKafkaPublisher::pushMessage`: `-1` if the producer does not take the message. -/
def pushMessage (message : PublishMessage) (p : RDKafkaPublisher) : RDKafkaPublisher × ℤ :=
  let resp := p.producer.produce message
  ({ p with producer := resp.1 }, if resp.2 then 0 else -1)

end RDKafkaPublisher

end Ekg
