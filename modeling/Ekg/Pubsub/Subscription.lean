import Ekg.Lib.Steps
import Ekg.Pubsub.RDKafkaSubscriber

/-!
# The topics of a subscriber

`RDKafkaSubscriber` keeps the list of its topics, and `setQueue` and `addQueue` give the whole list
to `subscribe`.  They change the list first.  If `subscribe` then fails they throw, and the list
stays changed: it is not the list that the consumer is subscribed to, and the next `addQueue` starts
from it.

`throughout_inStep_iff` says when the two lists are nevertheless the same after every call: when no
call fails except such as ask for what the list already is.
-/

set_option autoImplicit false

namespace Ekg

open Steps

/-- The part of `RDKafkaSubscriber` that `setQueue` and `addQueue` work on. -/
structure Subscription where
  /-- `topics`. -/
  topics : List String
  /-- `consumer`, unless it is null: the argument of the last `subscribe` that succeeded. -/
  consumer : Option (List String)
  deriving DecidableEq, Repr

namespace Subscription

/-- The constructor, which throws if there is no consumer. -/
def construct : Subscription where
  topics := []
  consumer := some []

/-- `consumer->subscribe(topics)`, and what becomes of its error. -/
def subscribe (failure : Option String) (s : Subscription) : Subscription × Except String Unit :=
  match failure with
  | some what => (s, .error ("Error creating kafka producer (" ++ what ++ ")"))
  | none => ({ s with consumer := some s.topics }, .ok ())

/-- `RDKafkaSubscriber::setQueue`, where `failure` is the error of `subscribe` if it fails. -/
def setQueue (queue : List String) (failure : Option String) (s : Subscription) :
    Subscription × Except String Unit :=
  match s.consumer with
  | none => (s, .error "Subscriber has not been initialized")
  | some _ => subscribe failure { s with topics := queue }

/-- `RDKafkaSubscriber::addQueue`. -/
def addQueue (queue : List String) (failure : Option String) (s : Subscription) :
    Subscription × Except String Unit :=
  match s.consumer with
  | none => (s, .error "Subscriber has not been initialized")
  | some _ => subscribe failure { s with topics := s.topics ++ queue }

/-- A call, with the error of its `subscribe` if that fails. -/
inductive Call
  | setQueue (queue : List String) (failure : Option String)
  | addQueue (queue : List String) (failure : Option String)
  deriving DecidableEq, Repr

namespace Call

/-- The error of `subscribe`. -/
def failure : Call → Option String
  | setQueue _ failure => failure
  | addQueue _ failure => failure

/-- The list that the call asks for. -/
def asks (topics : List String) : Call → List String
  | setQueue queue _ => queue
  | addQueue queue _ => topics ++ queue

/-- Make the call. -/
def exec : Call → Subscription → Subscription × Except String Unit
  | setQueue queue failure => Subscription.setQueue queue failure
  | addQueue queue failure => Subscription.addQueue queue failure

end Call

/-- The subscriber after some calls. -/
def after (calls : List Call) : Subscription :=
  calls.foldl (fun s call ↦ (call.exec s).1) construct

/-- What a call should do: the list is what the consumer is subscribed to, it is the one that was
asked for if the call succeeds, and the old one if it throws. -/
structure InStep (call : Call) (s : Subscription) : Prop where
  subscribed : (call.exec s).1.consumer = some (call.exec s).1.topics
  changed : (call.exec s).2 = .ok () → (call.exec s).1.topics = call.asks s.topics
  unchanged : ∀ what, (call.exec s).2 = .error what → (call.exec s).1.topics = s.topics

variable {s : Subscription} {call : Call} {calls done : List Call}

/-- What a call does: the list becomes the one that was asked for, whether `subscribe` fails or
not. -/
theorem exec_eq (h : s.consumer ≠ none) :
    call.exec s = subscribe call.failure { s with topics := call.asks s.topics } := by
  obtain ⟨topics, hconsumer⟩ := Option.ne_none_iff_exists'.mp h
  cases call with
  | setQueue queue failure => simp [Call.exec, setQueue, hconsumer, Call.asks, Call.failure]
  | addQueue queue failure => simp [Call.exec, addQueue, hconsumer, Call.asks, Call.failure]

theorem after_concat : after (done ++ [call]) = (call.exec (after done)).1 := by
  rw [after, List.foldl_append]
  rfl

/-- A call that succeeds does what it should.  One that fails leaves the consumer alone, but not
the list. -/
theorem inStep_iff (h : s.consumer = some s.topics) :
    InStep call s ↔ (call.failure ≠ none → call.asks s.topics = s.topics) := by
  have hexec : call.exec s = _ := exec_eq (h ▸ Option.some_ne_none _)
  cases hfailure : call.failure with
  | none =>
    rw [hfailure] at hexec
    refine iff_of_true ⟨?_, fun _ ↦ ?_, fun what herror ↦ ?_⟩ (absurd rfl)
    · rw [hexec]; rfl
    · rw [hexec]; rfl
    · rw [hexec] at herror
      cases herror
  | some what =>
    rw [hfailure] at hexec
    refine ⟨fun hin _ ↦ ?_, fun hasks ↦ ?_⟩
    · have hunchanged := hin.unchanged _ (by rw [hexec]; rfl)
      rwa [hexec] at hunchanged
    · have hasks := hasks (Option.some_ne_none _)
      refine ⟨?_, fun hok ↦ ?_, fun _ _ ↦ ?_⟩
      · rw [hexec, hasks]; exact h
      · rw [hexec] at hok
        cases hok
      · rw [hexec, hasks]; rfl

/-- **When the list of topics is what the consumer is subscribed to**, after every call of a
history: when every call whose `subscribe` fails asks for what the list already is. -/
theorem throughout_inStep_iff (calls : List Call) :
    Throughout (fun done call ↦ InStep call (after done)) calls ↔
      Throughout (fun done call ↦ call.failure ≠ none →
        call.asks (after done).topics = (after done).topics) calls := by
  suffices h : (Throughout (fun done call ↦ InStep call (after done)) calls ↔
      Throughout (fun done call ↦ call.failure ≠ none →
        call.asks (after done).topics = (after done).topics) calls) ∧
      (Throughout (fun done call ↦ InStep call (after done)) calls →
        (after calls).consumer = some (after calls).topics) from h.1
  induction calls using List.reverseRecOn with
  | nil => simp [after, construct]
  | append_singleton calls call ih =>
    simp only [throughout_concat]
    refine ⟨?_, fun hall ↦ ?_⟩
    · rw [← ih.1]
      exact and_congr_right fun hcalls ↦ inStep_iff (ih.2 hcalls)
    · rw [after_concat]
      exact hall.2.subscribed

/-- A second topic that the broker refuses: it stays in the list. -/
theorem not_throughout_inStep :
    ¬ Throughout (fun done call ↦ InStep call (after done))
      [.setQueue ["a"] none, .addQueue ["b"] (some "refused")] := by
  intro h
  have hin := h [.setQueue ["a"] none] (.addQueue ["b"] (some "refused")) [] rfl
  exact absurd hin.subscribed (by decide)

end Subscription

end Ekg
