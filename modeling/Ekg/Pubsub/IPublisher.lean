import Mathlib.Data.Int.Notation
import Mathlib.Data.List.Basic

/-!
# Publishers

The interface that the worker publishes through.  What a publisher does with a message, and what it
answers, is up to the implementation, so a statement about every `IPublisher` is a statement about
the sequence of calls: `recorder` is the publisher whose state is that sequence.
-/

set_option autoImplicit false

namespace Ekg

universe u

/-- `PublishMessage`, by what its virtual functions return. -/
structure PublishMessage where
  reqType : String
  distributionKey : String
  queue : String
  /-- The bytes between `getBufferPtr` and `getBufferPtr + getBufferSize`. -/
  buffer : String
  deriving DecidableEq, Repr

/-- `IPublisher`, with its state of type `π`. -/
structure IPublisher (π : Type u) where
  /-- `pushMessage`: the new state, and the returned code. -/
  pushMessage : PublishMessage → π → π × ℤ

namespace IPublisher

variable {π : Type u} (publisher : IPublisher π)

/-- Push some messages one after the other, whatever the answers. -/
def pushAll (messages : List PublishMessage) (p : π) : π :=
  messages.foldl (fun p message ↦ (publisher.pushMessage message p).1) p

@[simp] theorem pushAll_nil (p : π) : publisher.pushAll [] p = p := rfl

theorem pushAll_cons (message : PublishMessage) (messages : List PublishMessage) (p : π) :
    publisher.pushAll (message :: messages) p =
      publisher.pushAll messages (publisher.pushMessage message p).1 := rfl

theorem pushAll_append (xs ys : List PublishMessage) (p : π) :
    publisher.pushAll (xs ++ ys) p = publisher.pushAll ys (publisher.pushAll xs p) :=
  List.foldl_append

/-- A publisher that keeps a record of the messages, and answers as it likes. -/
def recorder (reply : PublishMessage → ℤ) : IPublisher (List PublishMessage) where
  pushMessage message p := (p ++ [message], reply message)

/-- The record is the sequence of messages. -/
theorem pushAll_recorder (reply : PublishMessage → ℤ) (messages p : List PublishMessage) :
    (recorder reply).pushAll messages p = p ++ messages := by
  induction messages generalizing p with
  | nil => simp
  | cons message messages ih =>
    rw [pushAll_cons, ih]
    simp [recorder]

end IPublisher

end Ekg
