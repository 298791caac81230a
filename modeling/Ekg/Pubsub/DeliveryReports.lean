import Ekg.Lib.FirstWrite
import Ekg.Lib.Steps
import Ekg.Pubsub.IPublisher

/-!
# Delivery reports

A publisher keeps a map from request types to callbacks.  `setCallBackForReqType` puts a callback
into it and `dr_cb` looks one up when a message has been delivered, or could not be.  The two do not
go together: `dr_cb` looks up with `[]`, which makes an entry with an empty function if there is
none, and `setCallBackForReqType` uses `insert`, which changes nothing if there is an entry.  So one
report of a type, or one registration of an empty function, and no callback can be registered for
that type any more.

`after_apply` says what the map holds for a type: what the first event about the type has put
there.  `throughout_delivered_iff` says when the callbacks are called as they should be.
-/

set_option autoImplicit false

namespace Ekg

open Steps FirstWrite

universe u

/-- `EventType`. -/
inductive EventType
  | onDelivery | onSent | onError
  deriving DecidableEq, Repr

/-- `RdKafka::Message::Status`. -/
inductive MessageStatus
  | notPersisted | possiblyPersisted | persisted
  deriving DecidableEq, Repr

/-- `MapEvtHndlrForReqType`, where an entry may hold an empty function. -/
abbrev MapEvtHndlrForReqType (κ : Type u) := String → Option (Option κ)

/-- A call of a callback. -/
structure CallbackCall (κ : Type u) where
  callback : κ
  eventType : EventType
  message : PublishMessage
  deriving DecidableEq, Repr

namespace DeliveryReports

variable {κ : Type u}

/-- `IPublisher::setCallBackForReqType`. -/
def setCallBackForReqType (reqType : String) (eventCallback : Option κ)
    (m : MapEvtHndlrForReqType κ) : MapEvtHndlrForReqType κ × ℤ :=
  match m reqType with
  | some _ => (m, -1)
  | none => (Function.update m reqType (some eventCallback), 1)

/-- `eventCallbackForReqType[reqType]`. -/
def subscript (reqType : String) (m : MapEvtHndlrForReqType κ) :
    MapEvtHndlrForReqType κ × Option κ :=
  match m reqType with
  | some eventCallback => (m, eventCallback)
  | none => (Function.update m reqType (some none), none)

/-- The `switch` of `dr_cb`. -/
def eventOf : MessageStatus → EventType
  | .notPersisted => .onError
  | .possiblyPersisted => .onError
  | .persisted => .onSent

/-- `RDKafkaPublisher::dr_cb`: the map, and the calls that are made.  There is no message if the
opaque pointer is null. -/
def drCb (message : Option PublishMessage) (status : MessageStatus) (m : MapEvtHndlrForReqType κ) :
    MapEvtHndlrForReqType κ × List (CallbackCall κ) :=
  match message with
  | none => (m, [])
  | some message =>
    let r := subscript message.reqType m
    match r.2 with
    | none => (r.1, [])
    | some cbHandler => (r.1, [⟨cbHandler, eventOf status, message⟩])

/-- What happens to a publisher. -/
inductive Event (κ : Type u)
  | register (reqType : String) (eventCallback : Option κ)
  | report (message : Option PublishMessage) (status : MessageStatus)
  deriving DecidableEq, Repr

/-- What an event does, and the calls that are made. -/
def exec : Event κ → MapEvtHndlrForReqType κ → MapEvtHndlrForReqType κ × List (CallbackCall κ)
  | .register reqType eventCallback, m => ((setCallBackForReqType reqType eventCallback m).1, [])
  | .report message status, m => drCb message status m

/-- The map after some events. -/
def after (events : List (Event κ)) : MapEvtHndlrForReqType κ :=
  events.foldl (fun m e ↦ (exec e m).1) fun _ ↦ none

/-! ## What the map holds -/

/-- The event is about the type. -/
def about (reqType : String) : Event κ → Bool
  | .register reqType' _ => reqType' = reqType
  | .report (some message) _ => message.reqType = reqType
  | .report none _ => false

/-- What an event puts into the map if there is no entry yet. -/
def entryOf : Event κ → Option κ
  | .register _ eventCallback => eventCallback
  | .report _ _ => none

variable {reqType : String} {events done : List (Event κ)} {e : Event κ} {f : κ}
  {message : PublishMessage} {status : MessageStatus}

/-- An insertion fills an entry that is not there. -/
theorem setCallBackForReqType_apply (reqType : String) (eventCallback : Option κ)
    (m : MapEvtHndlrForReqType κ) (t : String) :
    (setCallBackForReqType reqType eventCallback m).1 t =
      (m t).or (if reqType = t then some eventCallback else none) := by
  have hinsert : (setCallBackForReqType reqType eventCallback m).1 =
      insertNew reqType eventCallback m := by
    unfold setCallBackForReqType insertNew
    cases m reqType <;> rfl
  rw [hinsert, insertNew_apply]

/-- A lookup inserts an empty function. -/
theorem subscript_eq (reqType : String) (m : MapEvtHndlrForReqType κ) :
    subscript reqType m = ((setCallBackForReqType reqType none m).1, (m reqType).join) := by
  unfold subscript setCallBackForReqType
  cases m reqType <;> rfl

theorem drCb_eq (m : MapEvtHndlrForReqType κ) :
    drCb (some message) status m =
      ((setCallBackForReqType message.reqType none m).1,
        (m message.reqType).join.toList.map fun f ↦ ⟨f, eventOf status, message⟩) := by
  simp only [drCb, subscript_eq]
  cases (m message.reqType).join <;> rfl

theorem exec_fst_apply (e : Event κ) (m : MapEvtHndlrForReqType κ) (reqType : String) :
    (exec e m).1 reqType = (m reqType).or (if about reqType e then some (entryOf e) else none) := by
  cases e with
  | register reqType' eventCallback =>
    simpa [exec, about, entryOf] using setCallBackForReqType_apply reqType' eventCallback m reqType
  | report message status =>
    cases message with
    | none => simp [exec, drCb, about]
    | some message =>
      simpa [exec, drCb_eq, about, entryOf] using
        setCallBackForReqType_apply message.reqType none m reqType

/-- What an event has for the entry of a type. -/
def writes (reqType : String) (e : Event κ) : Option (Option κ) :=
  if about reqType e then some (entryOf e) else none

theorem inserts_exec :
    Inserts (fun m e ↦ (exec e m).1) (fun (m : MapEvtHndlrForReqType κ) t ↦ m t) writes :=
  fun m e reqType ↦ exec_fst_apply e m reqType

/-- **The first event about a type decides what the map holds for it.** -/
theorem after_apply (events : List (Event κ)) (reqType : String) :
    after events reqType = (events.find? (about reqType)).map entryOf :=
  inserts_exec.obs_foldl_eq_find? rfl fun _ ↦ rfl

/-! ## What is called -/

/-- The callback that is registered, if the event is a registration of one. -/
def registers (reqType : String) : Event κ → Option κ
  | .register reqType' eventCallback => if reqType' = reqType then eventCallback else none
  | .report _ _ => none

/-- The first callback that was registered for a type. -/
def firstCallback (reqType : String) (events : List (Event κ)) : Option κ :=
  events.findSome? (registers reqType)

/-- What a report of a message should do, after the events `done`: call the first callback that was
registered for its type, once, with `onSent` if the message is persisted and with `onError` if it is
not, or possibly; and call nothing that was not registered for its type. -/
structure Delivered (done : List (Event κ)) (message : PublishMessage) (status : MessageStatus) :
    Prop where
  calls : ∀ f, firstCallback message.reqType done = some f →
    (drCb (some message) status (after done)).2 =
      [⟨f, if status = .persisted then .onSent else .onError, message⟩]
  registered : ∀ call ∈ (drCb (some message) status (after done)).2,
    .register message.reqType (some call.callback) ∈ done

/-- No other event about the type was there before the registration of its first callback. -/
def Unspoiled (done : List (Event κ)) (reqType : String) : Prop :=
  ∀ f, firstCallback reqType done = some f →
    done.find? (about reqType) = some (.register reqType (some f))

/-- There is a callback to be found exactly when the first event about the type has registered
it. -/
theorem after_join_eq_some :
    (after done reqType).join = some f ↔
      done.find? (about reqType) = some (.register reqType (some f)) := by
  rw [after_apply, Option.join_eq_some_iff, Option.map_eq_some_iff]
  refine ⟨fun ⟨e, hfind, hentry⟩ ↦ ?_, fun hfind ↦ ⟨_, hfind, rfl⟩⟩
  · have habout := List.find?_some hfind
    rw [hfind]
    cases e with
    | register reqType' eventCallback =>
      obtain rfl : reqType' = reqType := by simpa [about] using habout
      rw [show eventCallback = some f from hentry]
    | report message status => cases hentry

theorem eventOf_eq (status : MessageStatus) :
    eventOf status = if status = .persisted then .onSent else .onError := by
  cases status <;> rfl

theorem drCb_calls :
    (drCb (some message) status (after done)).2 =
      (after done message.reqType).join.toList.map fun f ↦
        ⟨f, if status = .persisted then .onSent else .onError, message⟩ := by
  rw [drCb_eq, eventOf_eq]

theorem delivered_iff : Delivered done message status ↔ Unspoiled done message.reqType := by
  refine ⟨fun h f hfirst ↦ ?_, fun h ↦ ⟨fun f hfirst ↦ ?_, fun call hcall ↦ ?_⟩⟩
  · have hcalls := h.calls f hfirst
    rw [drCb_calls] at hcalls
    rw [← after_join_eq_some]
    cases hjoin : (after done message.reqType).join with
    | none => simp [hjoin] at hcalls
    | some g =>
      rw [show g = f by simpa [hjoin] using hcalls]
  · rw [drCb_calls, after_join_eq_some.mpr (h f hfirst)]
    rfl
  · rw [drCb_calls] at hcall
    obtain ⟨f, hf, rfl⟩ := List.mem_map.mp hcall
    exact List.mem_of_find?_eq_some (after_join_eq_some.mp (Option.mem_toList.mp hf))

/-- **When a registered callback receives its reports**: when the registration of the first callback
for a type was the first event about that type.  A report of the type before it, or a registration
of an empty function, takes its place in the map for good. -/
theorem throughout_delivered_iff (events : List (Event κ)) :
    Throughout (fun done e ↦ ∀ message status, e = .report (some message) status →
      Delivered done message status) events ↔
    Throughout (fun done e ↦ ∀ message status, e = .report (some message) status →
      Unspoiled done message.reqType) events := by
  simp only [delivered_iff]

/-- A report that comes before the registration. -/
theorem not_throughout_delivered :
    ¬ Throughout (fun done e ↦ ∀ message status, e = .report (some message) status →
      Delivered done message status)
      [.report (some ⟨"t", "k", "q", "1"⟩) .persisted, .register "t" (some "f"),
        .report (some ⟨"t", "k", "q", "2"⟩) .persisted] := by
  intro h
  have hdelivered := h [.report (some ⟨"t", "k", "q", "1"⟩) .persisted, .register "t" (some "f")]
    _ [] rfl ⟨"t", "k", "q", "2"⟩ .persisted rfl
  exact absurd (hdelivered.calls "f" (by decide)) (by decide)

end DeliveryReports

end Ekg
