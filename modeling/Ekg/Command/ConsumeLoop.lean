import Mathlib.Data.List.Forall2
import Ekg.Command.CMDController

/-!
# The command loop, call by call

`CMDController` says what the loop of `consume` leaves behind.  Here is the loop as it is written:
one vector that `getMsg` appends to and that the end of a pass clears, a `try` around the decoding
of a message inside the `for_each`, and a `try` around the handler and the commit.  What is thrown
is an outcome of `ExceptT`, over the state in which the calls so far are recorded, so that a call
that was made is not undone by what comes after it.

Everything that the loop meets is an argument: the messages of a fetch, what the JSON parser and
`MapToCommand::parse` make of each of them, and whether the handler and the commit throw.
`consume_isolates` cuts the record of a run into one segment for each fetch that returned messages,
and says what is in it.
-/

set_option autoImplicit false

namespace Ekg

/-- What `boost::json::parse(value_str, ec)` makes of a message. -/
inductive JsonOutcome
  /-- `ec` is set, and the value is null. -/
  | errorCode (message : String)
  /-- A value that is not an object. -/
  | otherValue
  | object (commandDescription : Object)

/-- `as_object`, of what the parser returned. -/
def JsonOutcome.asObject : JsonOutcome → Except String Object
  | .errorCode _ => .error "not an object"
  | .otherValue => .error "not an object"
  | .object commandDescription => .ok commandDescription

/-- A message, with what its decoding meets. -/
structure Arrival where
  message : SubscriberInterfaceElement
  json : JsonOutcome
  /-- `MapToCommand::parse`: a command, null, or a `std::exception`. -/
  parse : Object → Except String (Option Command)

namespace Arrival

/-- The lambda that `consume` passes to `for_each`, on the vector it captures. -/
def handleMessage (resultVec : List Command) (arrival : Arrival) : List Command :=
  if arrival.message.dataLen = 0 then resultVec
  else
    let attempt : Except String (List Command) := do
      let commandDescription ← arrival.json.asObject
      match ← arrival.parse commandDescription with
      | some v => pure (resultVec ++ [v])
      | none => pure resultVec
    match attempt with
    | .ok resultVec => resultVec
    -- `catch (std::exception& ex)`
    | .error _ => resultVec

/-- The command that a message stands for: none, if it is empty, not JSON, not an object, or not
decoded. -/
def contribution (arrival : Arrival) : Option Command :=
  if arrival.message.dataLen = 0 then none
  else
    match arrival.json with
    | .errorCode _ => none
    | .otherValue => none
    | .object commandDescription =>
      match arrival.parse commandDescription with
      | .ok v => v
      | .error _ => none

theorem handleMessage_eq (resultVec : List Command) (arrival : Arrival) :
    handleMessage resultVec arrival = resultVec ++ arrival.contribution.toList := by
  rw [handleMessage, contribution]
  split
  · exact (List.append_nil _).symm
  · cases hjson : arrival.json with
    | errorCode message => exact (List.append_nil _).symm
    | otherValue => exact (List.append_nil _).symm
    | object commandDescription =>
      simp only [JsonOutcome.asObject]
      cases hparse : arrival.parse commandDescription with
      | error what => simp [bind, Except.bind, hparse]
      | ok v => cases v <;> simp [bind, Except.bind, pure, Except.pure, hparse]

/-- `result_vec`, after the `for_each`. -/
theorem foldl_handleMessage (arrivals : List Arrival) :
    arrivals.foldl handleMessage [] = arrivals.filterMap contribution := by
  have happend : ∀ resultVec, arrivals.foldl handleMessage resultVec =
      resultVec ++ arrivals.filterMap contribution := by
    induction arrivals with
    | nil => simp
    | cons arrival arrivals ih =>
      intro resultVec
      rw [List.foldl_cons, ih, handleMessage_eq, List.append_assoc]
      cases h : arrival.contribution <;> simp [h]
  exact (happend []).trans (List.nil_append _)

/-- A message in the model of the loop above, with what its decoding meets there. -/
def ofMessage (parser : MessageParser) (message : SubscriberInterfaceElement) : Arrival where
  message := message
  json :=
    match parser.parseObject message.data with
    | none => .otherValue
    | some commandDescription => .object commandDescription
  parse commandDescription :=
    match MapToCommand.parse commandDescription with
    | .ok v => .ok v
    | .error (.exception what) => .error what
    | .error (.endIterator _) => .ok (parser.undefinedRead commandDescription)

theorem contribution_ofMessage (parser : MessageParser) (message : SubscriberInterfaceElement) :
    (ofMessage parser message).contribution = parser.decode message := by
  simp only [contribution, ofMessage, MessageParser.decode]
  refine if_congr Iff.rfl rfl ?_
  cases parser.parseObject message.data with
  | none => rfl
  | some commandDescription =>
    dsimp only
    cases MapToCommand.parse commandDescription with
    | ok v => rfl
    | error fault => cases fault <;> rfl

end Arrival

/-! ## The loop -/

/-- What one pass of the loop meets. -/
structure Pass where
  /-- What `getMsg` appends to the vector. -/
  fetched : List Arrival
  /-- Whether `cmd_handler` throws, if it is called. -/
  handlerThrows : Bool
  /-- Whether `subscriber->commit()` throws, if it is called. -/
  commitThrows : Bool

/-- What the loop does, as far as others can see it. -/
inductive Action
  /-- A vector with messages is gone through. -/
  | batch (received : List Arrival)
  /-- `cmd_handler(resultVec)`. -/
  | handler (resultVec : List Command) (threw : Bool)
  /-- `subscriber->commit()`. -/
  | commit (threw : Bool)

/-- The local state of `consume`, and the record of its calls. -/
structure ConsumeState where
  /-- `received_message`. -/
  receivedMessage : List Arrival
  record : List Action

/-- The body of `consume`: what is thrown does not undo what was done. -/
abbrev ConsumeM := ExceptT Unit (StateM ConsumeState)

namespace ConsumeM

/-- Execute: how it ended, and the state it leaves. -/
def exec {α : Type} (x : ConsumeM α) (s : ConsumeState) : Except Unit α × ConsumeState :=
  x.run.run s

section Exec

variable {α β : Type} (x : ConsumeM α) (s : ConsumeState)

@[simp] theorem exec_pure (a : α) : exec (pure a) s = (.ok a, s) := rfl

@[simp] theorem exec_throw : exec (throw () : ConsumeM α) s = (.error (), s) := rfl

@[simp] theorem exec_get : exec get s = (.ok s, s) := rfl

@[simp] theorem exec_modify (f : ConsumeState → ConsumeState) :
    exec (modify f) s = (.ok (), f s) := rfl

@[simp] theorem exec_bind (f : α → ConsumeM β) :
    exec (x >>= f) s =
      match exec x s with
      | (.ok a, s') => exec (f a) s'
      | (.error e, s') => (.error e, s') := by
  change (match exec x s with | (r, s') => ExceptT.bindCont f r s') = _
  rcases exec x s with ⟨_ | a, s'⟩ <;> rfl

/-- What was done before the exception stays done. -/
@[simp] theorem exec_tryCatch (handle : Unit → ConsumeM α) :
    exec (tryCatch x handle) s =
      match exec x s with
      | (.ok a, s') => (.ok a, s')
      | (.error e, s') => exec (handle e) s' := by
  have hx : exec x s = x s := rfl
  rw [exec, ExceptT.run, StateT.run, hx]
  simp only [tryCatch, tryCatchThe, MonadExceptOf.tryCatch, ExceptT.tryCatch, ExceptT.mk, bind,
    StateT.bind]
  rcases x s with ⟨_ | a, s'⟩ <;> rfl

end Exec

/-- Record a call, which throws or does not. -/
def call (action : Action) (throws : Bool) : ConsumeM Unit := do
  modify fun s ↦ { s with record := s.record ++ [action] }
  if throws then throw ()

/-- The body of the second `try` of `consume`. -/
def dispatch (resultVec : List Command) (pass : Pass) : ConsumeM Unit := do
  if resultVec.length != 0 then
    call (.handler resultVec pass.handlerThrows) pass.handlerThrows
  call (.commit pass.commitThrows) pass.commitThrows

/-- One pass of the loop of `CMDController::consume`. -/
def consumeOnce (pass : Pass) : ConsumeM Unit := do
  modify fun s ↦ { s with receivedMessage := s.receivedMessage ++ pass.fetched }
  let receivedMessage := (← get).receivedMessage
  if receivedMessage.length != 0 then
    call (.batch receivedMessage) false
    let resultVec := receivedMessage.foldl Arrival.handleMessage []
    -- `catch (...)`
    tryCatch (dispatch resultVec pass) fun _ ↦ pure ()
    modify fun s ↦ { s with receivedMessage := [] }

/-- `CMDController::consume`, for as many passes as `run` stays true. -/
def consume : List Pass → ConsumeM Unit
  | [] => pure ()
  | pass :: passes => do
    consumeOnce pass
    consume passes

end ConsumeM

/-- The commands that the messages of a pass stand for, in the order of their arrival. -/
def Pass.commands (pass : Pass) : List Command := pass.fetched.filterMap Arrival.contribution

/-- The calls of a pass after it has decoded its messages. -/
def Pass.dispatched (pass : Pass) : List Action :=
  if pass.commands.length != 0 then
    .handler pass.commands pass.handlerThrows ::
      if pass.handlerThrows then [] else [.commit pass.commitThrows]
  else [.commit pass.commitThrows]

/-- The calls of a pass. -/
def Pass.actions (pass : Pass) : List Action :=
  if pass.fetched.length != 0 then .batch pass.fetched :: pass.dispatched else []

namespace ConsumeM

theorem exec_call (action : Action) (throws : Bool) (s : ConsumeState) :
    exec (call action throws) s =
      (if throws then .error () else .ok (), { s with record := s.record ++ [action] }) := by
  cases throws <;> rfl

/-- The body of the `try` makes its calls, and may end with an exception. -/
theorem exec_dispatch (pass : Pass) (s : ConsumeState) :
    ∃ r, exec (dispatch pass.commands pass) s =
      (r, { s with record := s.record ++ pass.dispatched }) := by
  rw [dispatch, Pass.dispatched]
  split
  · cases hthrows : pass.handlerThrows <;> simp [exec_call]
  · simp [exec_call]

/-- **What one pass does**: it ends without an exception, with an empty vector. -/
theorem exec_consumeOnce (pass : Pass) (record : List Action) :
    exec (consumeOnce pass) ⟨[], record⟩ = (.ok (), ⟨[], record ++ pass.actions⟩) := by
  have hcommands : pass.fetched.foldl Arrival.handleMessage [] = pass.commands :=
    Arrival.foldl_handleMessage pass.fetched
  rw [consumeOnce, Pass.actions]
  simp only [exec_bind, exec_modify, exec_get, List.nil_append]
  split
  · obtain ⟨r, hr⟩ := exec_dispatch pass ⟨pass.fetched, record ++ [.batch pass.fetched]⟩
    simp only [exec_bind, exec_call, Bool.false_eq_true, if_false, hcommands, exec_tryCatch, hr]
    -- the exception, if there is one, is caught
    cases r <;> simp
  · rename_i hempty
    have hnil : pass.fetched = [] := by simpa using hempty
    simp [hnil]

/-- **No run of the loop ends with an exception**, and the record is pass by pass. -/
theorem exec_consume (passes : List Pass) (record : List Action) :
    exec (consume passes) ⟨[], record⟩ =
      (.ok (), ⟨[], record ++ passes.flatMap Pass.actions⟩) := by
  induction passes generalizing record with
  | nil => simp [consume]
  | cons pass passes ih =>
    rw [consume, exec_bind, exec_consumeOnce]
    simp only [ih, List.flatMap_cons, List.append_assoc]

end ConsumeM

/-! ## Batches -/

namespace Action

/-- The messages of a batch. -/
def batch? : Action → Option (List Arrival)
  | .batch received => some received
  | .handler _ _ => none
  | .commit _ => none

/-- The commands that are handed to the handler. -/
def handled? : Action → Option (List Command)
  | .batch _ => none
  | .handler resultVec _ => some resultVec
  | .commit _ => none

/-- The outcome of a commit. -/
def committed? : Action → Option Bool
  | .batch _ => none
  | .handler _ _ => none
  | .commit threw => some threw

end Action

/-- What the calls that follow a fetch have to do with the messages of the fetch. -/
structure Isolated (pass : Pass) (segment : List Action) : Prop where
  /-- The messages are one batch. -/
  batch : segment.filterMap Action.batch? = [pass.fetched]
  /-- The handler is called at most once. -/
  once : (segment.filterMap Action.handled?).length ≤ 1
  /-- It is called with what the messages stand for, and with something. -/
  handled : ∀ resultVec ∈ segment.filterMap Action.handled?,
    resultVec ≠ [] ∧ resultVec = pass.fetched.filterMap Arrival.contribution
  /-- It is called if there is something to call it with. -/
  delivered : pass.fetched.filterMap Arrival.contribution ≠ [] →
    segment.filterMap Action.handled? ≠ []
  /-- The commit is called if and only if the handler did not throw. -/
  commit_iff : segment.filterMap Action.committed? ≠ [] ↔
    ∀ resultVec, Action.handler resultVec true ∉ segment
  /-- Nothing follows a commit, so there is one at most, and the handler is before it. -/
  commit_last : segment.Pairwise fun earlier _ ↦ earlier.committed? = none

/-- The calls of a pass that fetches messages. -/
theorem Pass.actions_cases {pass : Pass} (h : pass.fetched ≠ []) :
    (pass.commands = [] ∧ pass.actions = [.batch pass.fetched, .commit pass.commitThrows]) ∨
    (pass.commands ≠ [] ∧ pass.handlerThrows = true ∧
      pass.actions = [.batch pass.fetched, .handler pass.commands true]) ∨
    (pass.commands ≠ [] ∧ pass.handlerThrows = false ∧
      pass.actions =
        [.batch pass.fetched, .handler pass.commands false, .commit pass.commitThrows]) := by
  have hfetched : (pass.fetched.length != 0) = true := by simpa using h
  rw [actions, if_pos hfetched, dispatched]
  by_cases hcommands : pass.commands = []
  · exact Or.inl ⟨hcommands, by simp [hcommands]⟩
  · cases hthrows : pass.handlerThrows with
    | true => exact Or.inr (Or.inl ⟨hcommands, rfl, by simp [hcommands]⟩)
    | false => exact Or.inr (Or.inr ⟨hcommands, rfl, by simp [hcommands]⟩)

theorem isolated_actions {pass : Pass} (h : pass.fetched ≠ []) : Isolated pass pass.actions := by
  obtain ⟨hcommands, hactions⟩ | ⟨hcommands, -, hactions⟩ | ⟨hcommands, -, hactions⟩ :=
    Pass.actions_cases h
  · have hhandled : pass.actions.filterMap Action.handled? = [] := by
      rw [hactions]
      rfl
    refine ⟨by rw [hactions]; rfl, by rw [hhandled]; decide, by simp [hhandled],
      fun hne ↦ absurd hcommands hne, ?_, ?_⟩ <;> simp [hactions, Action.committed?]
  all_goals
    have hhandled : pass.actions.filterMap Action.handled? = [pass.commands] := by
      rw [hactions]
      rfl
    refine ⟨by rw [hactions]; rfl, by rw [hhandled]; exact Nat.le_refl 1, fun v hv ↦ ?_,
      fun _ ↦ by simp [hhandled], ?_, ?_⟩
    · obtain rfl : v = pass.commands := List.mem_singleton.mp (hhandled ▸ hv)
      exact ⟨hcommands, rfl⟩
    all_goals simp [hactions, Action.committed?]

/-- **Batches are isolated, and are committed unless their handler threw.**  Whatever the messages
are, whatever their decoding meets, and whoever throws, the loop goes on to the end, and its calls
are one segment after the other, one for each fetch that returned messages. -/
theorem consume_isolates (passes : List Pass) :
    ∃ (record : List Action) (segments : List (List Action)),
      ConsumeM.exec (ConsumeM.consume passes) ⟨[], []⟩ = (.ok (), ⟨[], record⟩) ∧
      record = segments.flatten ∧
      List.Forall₂ Isolated (passes.filter fun pass ↦ pass.fetched ≠ []) segments ∧
      (record.filterMap Action.batch?).flatten = passes.flatMap Pass.fetched := by
  refine ⟨passes.flatMap Pass.actions,
    (passes.filter fun pass ↦ pass.fetched ≠ []).map Pass.actions,
    ConsumeM.exec_consume passes [], ?_, ?_, ?_⟩
  · induction passes with
    | nil => rfl
    | cons pass passes ih =>
      rw [List.flatMap_cons, ih, List.filter_cons]
      split
      · rfl
      · rename_i h
        have hnil : pass.fetched = [] := by simpa using h
        simp [Pass.actions, hnil]
  · rw [List.forall₂_map_right_iff, List.forall₂_same]
    intro pass hpass
    exact isolated_actions (by simpa using (List.mem_filter.mp hpass).2)
  · induction passes with
    | nil => rfl
    | cons pass passes ih =>
      rw [List.flatMap_cons, List.filterMap_append, List.flatten_append, ih, List.flatMap_cons]
      congr 1
      by_cases h : pass.fetched = []
      · simp [Pass.actions, h]
      · rw [(isolated_actions h).batch]
        simp

/-! ## What the loop leaves behind -/

section Round

variable {parser : MessageParser} {r : Round}

/-- A pass of the loop above, call by call. -/
def Round.pass (parser : MessageParser) (r : Round) : Pass where
  fetched := r.fetched.map (Arrival.ofMessage parser)
  handlerThrows := r.handlerThrows
  commitThrows := r.commitFails

theorem Round.commands_pass : (r.pass parser).commands = r.fetched.filterMap parser.decode := by
  rw [Pass.commands, pass, List.filterMap_map]
  exact List.filterMap_congr fun message _ ↦ Arrival.contribution_ofMessage parser message

theorem Round.throws_eq :
    r.throws parser = ((r.pass parser).commands.length != 0 && (r.pass parser).handlerThrows) := by
  rw [commands_pass]
  rfl

/-- The handler throws in the one model exactly if it throws in the other. -/
theorem Round.throws_iff_mem_actions :
    r.throws parser = true ↔ ∃ v, .handler v true ∈ (r.pass parser).actions := by
  by_cases h : r.fetched = []
  · have hthrows : r.throws parser ≠ true := fun hr ↦ fetched_ne_nil_of_throws hr h
    simp [hthrows, Pass.actions, pass, h]
  · have hpass : (r.pass parser).fetched ≠ [] := by simpa [pass] using h
    rw [throws_eq]
    obtain ⟨hcommands, hactions⟩ | ⟨hcommands, hthrows, hactions⟩ |
      ⟨hcommands, hthrows, hactions⟩ := Pass.actions_cases hpass
    · simp [hcommands, hactions]
    · simp [hcommands, hactions, hthrows]
    · simp [hactions, hthrows]

/-- A commit succeeds in the one model exactly if it succeeds in the other. -/
theorem Round.commits_iff_mem_actions :
    r.commits parser = true ↔ .commit false ∈ (r.pass parser).actions := by
  by_cases h : r.fetched = []
  · have hcommits : r.commits parser ≠ true := fun hr ↦ fetched_ne_nil_of_commits hr h
    simp [hcommits, Pass.actions, pass, h]
  · have hpass : (r.pass parser).fetched ≠ [] := by simpa [pass] using h
    have hcommitThrows : (r.pass parser).commitThrows = r.commitFails := rfl
    rw [commits, throws_eq]
    obtain ⟨hcommands, hactions⟩ | ⟨hcommands, hthrows, hactions⟩ |
      ⟨hcommands, hthrows, hactions⟩ := Pass.actions_cases hpass
    · simp [h, hcommands, hactions, hcommitThrows]
    · simp [hcommands, hactions, hthrows]
    · simp [h, hactions, hthrows, hcommitThrows]

end Round

end Ekg
