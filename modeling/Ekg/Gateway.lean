import Ekg.Lib.Steps
import Ekg.Node.MonitorEvents
import Ekg.Node.Serial
import Ekg.Pubsub.RDKafkaPublisher

/-!
# The gateway

`EKGateway::setup` puts the parts together: the worker, whose topic lists the commands change, and
a Kafka publisher, to which the worker pushes a message for every update and topic.

`refused_eq_zero_iff` counts what becomes of the messages when the broker is as fast as it can be.
Every accepted message keeps its slot, because nothing serves the delivery reports, and so a run is
free of refusals exactly if it pushes no more messages, ever, than the queue of the producer holds.
-/

set_option autoImplicit false

namespace Ekg

open Steps

/-- The Kafka publisher, next to the number of calls it has refused with `-1`.  The broker
acknowledges each message before the next one is pushed. -/
def promptPublisher : IPublisher (RDKafkaPublisher × ℕ) where
  pushMessage message p :=
    let r := p.1.acknowledge.pushMessage message
    ((r.1, if r.2 = -1 then p.2 + 1 else p.2), r.2)

/-- The gateway, as far as publishing goes. -/
structure Gateway where
  worker : AcquireState := {}
  publisher : RDKafkaPublisher
  /-- How many calls of `pushMessage` have returned `-1`. -/
  refused : ℕ := 0

namespace Gateway

/-- `EKGateway::setup`, with a producer queue of the given capacity. -/
def setup (capacity : ℕ) : Gateway := { publisher := .construct capacity }

/-- What happens in the gateway. -/
inductive Action
  /-- A task of the pool runs. -/
  | command (failure : Option SetupFailure) (command : AquireCommand)
  /-- The service manager calls the handler of the worker. -/
  | monitorEvent (eventData : List MonitorEvent)
  /-- The broker acknowledges what it has. -/
  | acknowledge
  /-- The poll thread goes once round the loop of `flush`. -/
  | autoPoll

/-- One action. -/
def step (g : Gateway) : Action → Option Gateway
  | .command failure command =>
    some { g with worker := (acquireManagement failure command g.worker).1 }
  | .monitorEvent eventData =>
    let s := epicsMonitorEvent promptPublisher eventData
      ⟨g.worker.channelTopicsMap, (g.publisher, g.refused)⟩
    some { worker := { g.worker with channelTopicsMap := s.channelTopicsMap }
           publisher := s.publisher.1, refused := s.publisher.2 }
  | .acknowledge => some { g with publisher := g.publisher.acknowledge }
  | .autoPoll => g.publisher.autoPollOnce.map fun publisher ↦ { g with publisher }

/-- The command that an action runs, if it does. -/
def commandOf : Action → List AquireCommand
  | .command _ command => [command]
  | .monitorEvent _ => []
  | .acknowledge => []
  | .autoPoll => []

/-- The messages that an action pushes, after the commands `done`: those of its events, for the
topics that are subscribed by then. -/
def pushedBy (done : List AquireCommand) : Action → List PublishMessage
  | .monitorEvent eventData => eventData.flatMap (eventMessages (acquireAll {} done).topics)
  | _ => []

/-- The messages that a run pushes, after the commands `done`. -/
def messagesOf (done : List AquireCommand) : List Action → List PublishMessage
  | [] => []
  | a :: acts => pushedBy done a ++ messagesOf (done ++ commandOf a) acts

/-! ## Slots are taken, and never given back -/

/-- The books of a publisher to which `pushed` messages were pushed: it has no poll thread, and the
messages are in the queue or were refused. -/
structure Account (capacity pushed : ℕ) (p : RDKafkaPublisher × ℕ) : Prop where
  thread : p.1.autoPollThread = false
  capacity_eq : p.1.producer.capacity = capacity
  taken : p.1.producer.outqLen = min capacity pushed
  refused : p.2 = pushed - capacity

variable {capacity pushed : ℕ} {p : RDKafkaPublisher × ℕ}

theorem account_setup (capacity : ℕ) :
    Account capacity 0 ((setup capacity).publisher, (setup capacity).refused) :=
  ⟨rfl, rfl, (Nat.min_zero _).symm, (Nat.zero_sub _).symm⟩

theorem Account.acknowledge (h : Account capacity pushed p) :
    Account capacity pushed (p.1.acknowledge, p.2) :=
  ⟨h.thread, h.capacity_eq, (Producer.outqLen_acknowledge _).trans h.taken, h.refused⟩

/-- One more message takes a slot, or is refused if none is left. -/
theorem Account.pushMessage (h : Account capacity pushed p) (message : PublishMessage) :
    Account capacity (pushed + 1) (promptPublisher.pushMessage message p).1 := by
  have hcap : p.1.acknowledge.producer.capacity = capacity := h.acknowledge.capacity_eq
  have htaken : p.1.acknowledge.producer.outqLen = min capacity pushed := h.acknowledge.taken
  have hrefused : p.2 = pushed - capacity := h.refused
  rcases Producer.produce_cases message p.1.acknowledge.producer with
    ⟨hlt, hok, hlen, hcap'⟩ | ⟨hfull, hok, hsame⟩
  · have hcode : (p.1.acknowledge.pushMessage message).2 = 0 := by
      simp [RDKafkaPublisher.pushMessage, hok]
    refine ⟨h.thread, hcap'.trans hcap, hlen.trans ?_, ?_⟩
    · omega
    · simp only [promptPublisher, hcode]
      rw [if_neg (by decide)]
      omega
  · have hcode : (p.1.acknowledge.pushMessage message).2 = -1 := by
      simp [RDKafkaPublisher.pushMessage, hok]
    refine ⟨h.thread, (congrArg Producer.capacity hsame).trans hcap,
      (congrArg Producer.outqLen hsame).trans ?_, ?_⟩
    · omega
    · simp only [promptPublisher, hcode, if_true]
      omega

theorem Account.pushAll (h : Account capacity pushed p) (messages : List PublishMessage) :
    Account capacity (pushed + messages.length) (promptPublisher.pushAll messages p) := by
  induction messages generalizing pushed p with
  | nil => exact h
  | cons message messages ih =>
    rw [IPublisher.pushAll_cons, List.length_cons, Nat.add_comm messages.length, ← Nat.add_assoc]
    exact ih (h.pushMessage message)

/-- What is true of the gateway after the commands `done` and `pushed` messages. -/
structure Inv (capacity pushed : ℕ) (done : List AquireCommand) (g : Gateway) : Prop where
  account : Account capacity pushed (g.publisher, g.refused)
  /-- The topics are those of the commands, also of those that could not open their channel. -/
  topics : g.worker.topics = (acquireAll {} done).topics

theorem inv_setup (capacity : ℕ) : Inv capacity 0 [] (setup capacity) :=
  ⟨account_setup capacity, rfl⟩

variable {g g' : Gateway} {done : List AquireCommand} {a : Action} {acts : List Action}

theorem Inv.step (h : Inv capacity pushed done g) (hstep : step g a = some g') :
    Inv capacity (pushed + (pushedBy done a).length) (done ++ commandOf a) g' := by
  cases a with
  | command failure command =>
    obtain rfl := Option.some_inj.mp hstep
    refine ⟨h.account, funext fun c ↦ ?_⟩
    refine (AcquireState.topics_acquire g.worker command c).trans ?_
    rw [commandOf, acquireAll_concat, AcquireState.topics_acquire, h.topics]
  | monitorEvent eventData =>
    obtain rfl := Option.some_inj.mp hstep
    obtain ⟨hpublisher, hmap⟩ := epicsMonitorEvent_spec promptPublisher eventData
      ⟨g.worker.channelTopicsMap, (g.publisher, g.refused)⟩
    have hmessages : pushedBy done (.monitorEvent eventData) =
        eventData.flatMap (eventMessages g.worker.channelTopicsMap.topics) :=
      congrArg (fun topics ↦ eventData.flatMap (eventMessages topics)) h.topics.symm
    rw [hmessages, commandOf, List.append_nil]
    exact ⟨hpublisher ▸ h.account.pushAll _, hmap.trans h.topics⟩
  | acknowledge =>
    obtain rfl := Option.some_inj.mp hstep
    rw [commandOf, List.append_nil]
    exact ⟨h.account.acknowledge, h.topics⟩
  | autoPoll =>
    -- there is no thread that could do this
    have hthread : g.publisher.autoPollThread = false := h.account.thread
    simp [Gateway.step, RDKafkaPublisher.autoPollOnce, hthread] at hstep

theorem Inv.run (h : Inv capacity pushed done g) (hrun : Steps.run Gateway.step g acts = some g') :
    ∃ done', Inv capacity (pushed + (messagesOf done acts).length) done' g' := by
  induction acts generalizing g done pushed with
  | nil => exact ⟨done, Option.some_inj.mp hrun ▸ h⟩
  | cons a acts ih =>
    obtain ⟨m, hm, hrest⟩ := run_cons_eq_some.mp hrun
    rw [messagesOf, List.length_append, ← Nat.add_assoc]
    exact ih (h.step hm) hrest

/-- **Publishing goes on for one queue of messages.**  However fast the broker is, a run has no
refused message exactly if it pushes no more messages than the queue of the producer can hold. -/
theorem refused_eq_zero_iff {capacity : ℕ} {acts : List Action} {g : Gateway}
    (h : Steps.run step (setup capacity) acts = some g) :
    g.refused = 0 ↔ (messagesOf [] acts).length ≤ capacity := by
  obtain ⟨done, hinv⟩ := (inv_setup capacity).run h
  have hrefused : g.refused = 0 + (messagesOf [] acts).length - capacity := hinv.account.refused
  rw [hrefused]
  omega

/-- A run of one update, for a queue of one message. -/
theorem refused_eq_zero_iff_one :
    ∃ g, Steps.run step (setup 1)
        [.command none ⟨"pva", "channel:ramp:ramp", true, "acquire_comad_in"⟩,
          .monitorEvent [.ofUpdate "channel:ramp:ramp" "" ⟨[("value", ⟨"1"⟩)], by decide⟩]] =
        some g ∧
      (g.refused = 0 ↔ (messagesOf []
        [.command none ⟨"pva", "channel:ramp:ramp", true, "acquire_comad_in"⟩,
          .monitorEvent [.ofUpdate "channel:ramp:ramp" "" ⟨[("value", ⟨"1"⟩)], by decide⟩]]).length
        ≤ 1) :=
  ⟨_, rfl, refused_eq_zero_iff rfl⟩

/-- The second of two updates is refused, although the broker has acknowledged the first. -/
theorem refused_second_update :
    ∃ g, Steps.run step (setup 1)
        [.command none ⟨"pva", "channel:ramp:ramp", true, "acquire_comad_in"⟩,
          .monitorEvent [.ofUpdate "channel:ramp:ramp" "" ⟨[("value", ⟨"1"⟩)], by decide⟩],
          .acknowledge,
          .monitorEvent [.ofUpdate "channel:ramp:ramp" "" ⟨[("value", ⟨"2"⟩)], by decide⟩]] =
        some g ∧ g.refused ≠ 0 :=
  ⟨_, rfl, by decide⟩

end Gateway

end Ekg
