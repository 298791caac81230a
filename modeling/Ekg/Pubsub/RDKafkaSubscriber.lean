import Mathlib.Data.List.Basic

/-!
# The Kafka subscriber

A consumer of one queue has a position, the number of messages it has returned so far, and an
offset that is stored with the broker.  Both only ever grow: nothing in the gateway seeks back, and
a commit stores the position.  That the stored offset is not ahead of the position is therefore a
field of `RDKafkaSubscriber` and not a hypothesis of anything.
-/

set_option autoImplicit false

namespace Ekg

/-- `SubscriberInterfaceElement`: one message. -/
structure SubscriberInterfaceElement where
  key : String
  data : List UInt8
  deriving DecidableEq, Repr

/-- `data_len`. -/
def SubscriberInterfaceElement.dataLen (e : SubscriberInterfaceElement) : ℕ := e.data.length

/-- `RDKafkaSubscriber`, by what its consumer and the broker know about it. -/
structure RDKafkaSubscriber where
  /-- How many messages of the queue the consumer has returned. -/
  position : ℕ
  /-- The offset that is stored with the broker. -/
  committed : ℕ
  /-- Only what was returned can be committed. -/
  committed_le : committed ≤ position

namespace RDKafkaSubscriber

/-- A subscriber at the beginning of its queue. -/
def construct : RDKafkaSubscriber where
  position := 0
  committed := 0
  committed_le := Nat.le_refl 0

/-- `RDKafkaSubscriber::getMsg`, when it returns the messages `fetched`. -/
def getMsg (fetched : List SubscriberInterfaceElement) (s : RDKafkaSubscriber) :
    RDKafkaSubscriber × List SubscriberInterfaceElement :=
  ({ s with
      position := s.position + fetched.length
      committed_le := Nat.le_trans s.committed_le (Nat.le_add_right _ _) }, fetched)

/-- `KafkaConsumer::commitSync` without arguments: the current position is stored. -/
def commitSync (s : RDKafkaSubscriber) : RDKafkaSubscriber :=
  { s with committed := s.position, committed_le := Nat.le_refl _ }

/-- `KafkaConsumer::commitAsync` without arguments: the same position, without waiting. -/
def commitAsync (s : RDKafkaSubscriber) : RDKafkaSubscriber :=
  { s with committed := s.position, committed_le := Nat.le_refl _ }

/-- `RDKafkaSubscriber::commit`, where `fails` is whether the call returns an error code.  It is
the flag `async` that selects `commitSync`. -/
def commit (fails : Bool) (s : RDKafkaSubscriber) (async : Bool := false) :
    RDKafkaSubscriber × Except String Unit :=
  if fails then (s, .error "Error committing offset")
  else (if async then s.commitSync else s.commitAsync, .ok ())

/-- A commit moves nothing but the stored offset. -/
@[simp] theorem commit_fst_position (fails async : Bool) (s : RDKafkaSubscriber) :
    (s.commit fails async).1.position = s.position := by
  cases fails <;> cases async <;> rfl

/-- A commit that succeeds covers everything that was returned, in either mode. -/
@[simp] theorem commit_fst_committed (fails async : Bool) (s : RDKafkaSubscriber) :
    (s.commit fails async).1.committed = if fails then s.committed else s.position := by
  cases fails <;> cases async <;> rfl

end RDKafkaSubscriber

end Ekg
