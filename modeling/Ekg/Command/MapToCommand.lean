import Ekg.Command.Json
import Ekg.Lib.FirstWrite

/-!
# Commands, and their decoding from JSON

`MapToCommand.parse` turns a JSON object into a command.  It works in two halves that never talk to
each other: `checkFields` collects the members that are there with the expected kind, and the case
of the command type reads the collected fields back with `fields->find(KEY)->second`.  The
collection never reports a missing field (the map it returns is never null), and the read never
compares the iterator with `end`, so what happens on a missing field is decided by the read alone.
`Fault.endIterator` is that read.

The fall-through from one `case` to the next, taken when the map is null, is kept.

`parse_eq_ok_iff` says which objects a command is decoded from: those that have its type and its
values under the keys of its type.
-/

set_option autoImplicit false

namespace Ekg

/-! ## Commands -/

/-- The command types. -/
inductive CommandType
  | monitor | get | put | info | unknown
  deriving DecidableEq, Repr

/-- `command_type_to_string`. -/
def CommandType.toString : CommandType → String
  | .monitor => "monitor"
  | .get => "get"
  | .put => "put"
  | .info => "info"
  | .unknown => "unknown"

/-- `AquireCommand`: start or stop monitoring a channel for a destination topic. -/
structure AquireCommand where
  protocol : String
  channelName : String
  activate : Bool
  destinationTopic : String
  deriving DecidableEq, Repr

/-- `GetCommand`. -/
structure GetCommand where
  protocol : String
  channelName : String
  destinationTopic : String
  deriving DecidableEq, Repr

/-- `PutCommand`. -/
structure PutCommand where
  protocol : String
  channelName : String
  value : String
  deriving DecidableEq, Repr

/-- `InfoCommand`. -/
structure InfoCommand where
  protocol : String
  channelName : String
  destinationTopic : String
  deriving DecidableEq, Repr

/-- A command: the tag is the `type` field of the base structure. -/
inductive Command
  | monitor (c : AquireCommand)
  | get (c : GetCommand)
  | put (c : PutCommand)
  | info (c : InfoCommand)
  deriving DecidableEq, Repr

/-- `Command::type`. -/
def Command.type : Command → CommandType
  | .monitor _ => .monitor
  | .get _ => .get
  | .put _ => .put
  | .info _ => .info

/-! ## The keys of a command object -/

def keyCommand : String := "command"
def keyProtocol : String := "protocol"
def keyChannelName : String := "channel_name"
def keyActivate : String := "activate"
def keyDestTopic : String := "dest_topic"
def keyValue : String := "value"

/-- The fields of a monitor command, as `parse` passes them to `checkFields`. -/
def monitorFields : List (String × Kind) :=
  [(keyActivate, .bool_), (keyProtocol, .string), (keyChannelName, .string),
    (keyDestTopic, .string)]

/-- The fields that get, put and info commands share, with the one they do not. -/
def stringFields (last : String) : List (String × Kind) :=
  [(keyProtocol, .string), (keyChannelName, .string), (last, .string)]

/-- The fields of a get command. -/
def getFields : List (String × Kind) := stringFields keyDestTopic

/-- The fields of a put command. -/
def putFields : List (String × Kind) := stringFields keyValue

/-- The fields of an info command. -/
def infoFields : List (String × Kind) := stringFields keyDestTopic

/-- The fields that a command of the given type requires. -/
def requiredFields : CommandType → List (String × Kind)
  | .monitor => monitorFields
  | .get => getFields
  | .put => putFields
  | .info => infoFields
  | .unknown => []

theorem nodup_requiredFields (type : CommandType) :
    ((requiredFields type).map Prod.fst).Nodup := by
  cases type <;> decide

/-! ## Collected fields -/

/-- `std::any`, with the alternatives that `checkFields` stores. -/
inductive Any
  | int64 (i : Int64)
  | bool (b : Bool)
  | uint64 (u : UInt64)
  | double (bits : UInt64)
  | string (s : String)
  deriving DecidableEq, Repr

/-- What the `switch` of `checkFields` stores for a value; it has no case for the other kinds. -/
def Value.toAny? : Value → Option Any
  | .int64 i => some (.int64 i)
  | .bool b => some (.bool b)
  | .uint64 u => some (.uint64 u)
  | .double bits => some (.double bits)
  | .string s => some (.string s)
  | .null | .array _ | .object _ => none

/-- `FieldValuesMap`. -/
abbrev FieldValuesMap := Std.ExtTreeMap String Any

/-- How a decoding can go wrong: a `std::exception` is thrown, or the end iterator of the field map
is dereferenced. -/
inductive Fault
  | exception (what : String)
  | endIterator (key : String)
  deriving DecidableEq, Repr

namespace MapToCommand

/-- The value `checkFields` collects for one field. -/
def collected (obj : Object) (field : String × Kind) : Option Any :=
  (obj.ifContains field.1).bind fun v ↦ if v.kind = field.2 then v.toAny? else none

/-- The body of the loop of `checkFields`. -/
def collectField (obj : Object) (result : FieldValuesMap) (field : String × Kind) :
    FieldValuesMap :=
  match collected obj field with
  | some a => result.insertIfNew field.1 a
  | none => result

/-- `MapToCommand::checkFields`.  The `unique_ptr` it returns is never null. -/
def checkFields (obj : Object) (fields : List (String × Kind)) : Option FieldValuesMap :=
  some (fields.foldl (collectField obj) ∅)

/-- `fields->find(key)->second`. -/
def findSecond (fields : FieldValuesMap) (key : String) : Except Fault Any :=
  match fields[key]? with
  | some a => .ok a
  | none => .error (.endIterator key)

/-- `std::any_cast<std::string>(fields->find(key)->second)`. -/
def readString (fields : FieldValuesMap) (key : String) : Except Fault String := do
  match ← findSecond fields key with
  | .string s => return s
  | _ => throw (.exception "bad any_cast")

/-- `std::any_cast<bool>(fields->find(key)->second)`. -/
def readBool (fields : FieldValuesMap) (key : String) : Except Fault Bool := do
  match ← findSecond fields key with
  | .bool b => return b
  | _ => throw (.exception "bad any_cast")

/-! ## Decoding -/

/-- `MapToCommand::getCMDType`; `as_string` throws when the value is not a string. -/
def getCMDType (obj : Object) : Except Fault CommandType :=
  match obj.ifContains keyCommand with
  | none => .ok .unknown
  | some (.string cmd) =>
    if cmd = "monitor" then .ok .monitor
    else if cmd = "get" then .ok .get
    else if cmd = "put" then .ok .put
    else if cmd = "info" then .ok .info
    else .ok .unknown
  | some _ => .error (.exception "not a string")

def readMonitor (fields : FieldValuesMap) : Except Fault Command := do
  let protocol ← readString fields keyProtocol
  let channelName ← readString fields keyChannelName
  let activate ← readBool fields keyActivate
  let destinationTopic ← readString fields keyDestTopic
  return .monitor { protocol, channelName, activate, destinationTopic }

/-- The reads that get, put and info commands share. -/
def readStrings (last : String) (build : String → String → String → Command)
    (fields : FieldValuesMap) : Except Fault Command := do
  let protocol ← readString fields keyProtocol
  let channelName ← readString fields keyChannelName
  let value ← readString fields last
  return build protocol channelName value

def readGet : FieldValuesMap → Except Fault Command :=
  readStrings keyDestTopic fun protocol channelName destinationTopic ↦
    .get { protocol, channelName, destinationTopic }

def readPut : FieldValuesMap → Except Fault Command :=
  readStrings keyValue fun protocol channelName value ↦ .put { protocol, channelName, value }

def readInfo : FieldValuesMap → Except Fault Command :=
  readStrings keyDestTopic fun protocol channelName destinationTopic ↦
    .info { protocol, channelName, destinationTopic }

/-- One `case` of `parse`: read the command if the field map is not null, else fall through to the
next case. -/
def parseCase (obj : Object) (fields : List (String × Kind))
    (read : FieldValuesMap → Except Fault Command) (next : Except Fault (Option Command)) :
    Except Fault (Option Command) :=
  match checkFields obj fields with
  | some collected => (read collected).map some
  | none => next

/-- `case CommandType::unknown`: the object is logged as not well formed, and `result` is null. -/
def parseUnknown : Except Fault (Option Command) := .ok none

def parseInfo (obj : Object) : Except Fault (Option Command) :=
  parseCase obj infoFields readInfo parseUnknown

def parsePut (obj : Object) : Except Fault (Option Command) :=
  parseCase obj putFields readPut (parseInfo obj)

def parseGet (obj : Object) : Except Fault (Option Command) :=
  parseCase obj getFields readGet (parsePut obj)

def parseMonitor (obj : Object) : Except Fault (Option Command) :=
  parseCase obj monitorFields readMonitor (parseGet obj)

/-- `MapToCommand::parse`. -/
def parse (obj : Object) : Except Fault (Option Command) := do
  match ← getCMDType obj with
  | .monitor => parseMonitor obj
  | .get => parseGet obj
  | .put => parsePut obj
  | .info => parseInfo obj
  | .unknown => parseUnknown

/-! ## What the two halves agree on

`checkFields` and the reads meet in `readString_collect` and `readBool_collect`: under distinct
field names, reading a field of the list is the member of that name if it has the right kind, and
the end iterator if it does not. -/

variable {obj : Object} {key k : String} {fields : List (String × Kind)}

/-- What a field has for a key. -/
def writes (obj : Object) (key : String) (field : String × Kind) : Option Any :=
  if field.1 = key then collected obj field else none

theorem inserts_collectField (obj : Object) :
    FirstWrite.Inserts (collectField obj) (fun m key ↦ m[key]?) (writes obj) := by
  intro m field k
  rw [collectField, writes]
  cases collected obj field with
  | none => simp
  | some a => exact FirstWrite.getElem?_insertIfNew m field.1 a k

theorem getElem?_foldl_collectField (fields : List (String × Kind)) (m : FieldValuesMap) :
    (fields.foldl (collectField obj) m)[k]? = m[k]?.or (fields.findSome? (writes obj k)) :=
  (inserts_collectField obj).obs_foldl m fields k

/-- A field of the list is collected when, and as, the object has it. -/
theorem getElem?_collect (hnd : (fields.map Prod.fst).Nodup) {kind : Kind}
    (hf : (key, kind) ∈ fields) :
    (fields.foldl (collectField obj) ∅)[key]? = collected obj (key, kind) := by
  rw [getElem?_foldl_collectField, Std.ExtTreeMap.getElem?_empty, Option.none_or]
  induction fields with
  | nil => simp at hf
  | cons field fields ih =>
    rw [List.map_cons, List.nodup_cons] at hnd
    rw [List.findSome?_cons]
    rcases List.mem_cons.mp hf with rfl | hf
    · have hrest : fields.findSome? (writes obj key) = none := by
        rw [List.findSome?_eq_none_iff]
        intro field hfield
        exact if_neg fun he ↦ hnd.1 (List.mem_map.mpr ⟨field, hfield, he⟩)
      rw [writes, if_pos rfl, hrest]
      cases collected obj (key, kind) <;> rfl
    · have hne : field.1 ≠ key := by
        rintro rfl
        exact hnd.1 (List.mem_map.mpr ⟨_, hf, rfl⟩)
      rw [writes, if_neg hne]
      exact ih hnd.2 hf

/-- What a read makes of a member that may be missing. -/
def need {α : Type} (key : String) : Option α → Except Fault α
  | some a => .ok a
  | none => .error (.endIterator key)

theorem collected_string : collected obj (key, .string) = (obj.stringAt key).map Any.string := by
  rw [collected, Object.stringAt]
  cases obj.ifContains key with
  | none => rfl
  | some v => cases v <;> simp [Value.kind, Value.toAny?]

theorem collected_bool : collected obj (key, .bool_) = (obj.boolAt key).map Any.bool := by
  rw [collected, Object.boolAt]
  cases obj.ifContains key with
  | none => rfl
  | some v => cases v <;> simp [Value.kind, Value.toAny?]

theorem readString_collect (hnd : (fields.map Prod.fst).Nodup) (hf : (key, .string) ∈ fields) :
    readString (fields.foldl (collectField obj) ∅) key = need key (obj.stringAt key) := by
  rw [readString, findSecond, getElem?_collect hnd hf, collected_string]
  cases obj.stringAt key <;> rfl

theorem readBool_collect (hnd : (fields.map Prod.fst).Nodup) (hf : (key, .bool_) ∈ fields) :
    readBool (fields.foldl (collectField obj) ∅) key = need key (obj.boolAt key) := by
  rw [readBool, findSecond, getElem?_collect hnd hf, collected_bool]
  cases obj.boolAt key <;> rfl

theorem parseMonitor_eq (obj : Object) : parseMonitor obj = do
    let protocol ← need keyProtocol (obj.stringAt keyProtocol)
    let channelName ← need keyChannelName (obj.stringAt keyChannelName)
    let activate ← need keyActivate (obj.boolAt keyActivate)
    let destinationTopic ← need keyDestTopic (obj.stringAt keyDestTopic)
    return some (.monitor { protocol, channelName, activate, destinationTopic }) := by
  have hnd : (monitorFields.map Prod.fst).Nodup := nodup_requiredFields .monitor
  have hprotocol : (keyProtocol, Kind.string) ∈ monitorFields := by decide
  have hchannel : (keyChannelName, Kind.string) ∈ monitorFields := by decide
  have hactivate : (keyActivate, Kind.bool_) ∈ monitorFields := by decide
  have hdest : (keyDestTopic, Kind.string) ∈ monitorFields := by decide
  rw [parseMonitor, parseCase, checkFields]
  simp only [readMonitor, readString_collect hnd hprotocol, readString_collect hnd hchannel,
    readBool_collect hnd hactivate, readString_collect hnd hdest]
  cases obj.stringAt keyProtocol <;> cases obj.stringAt keyChannelName <;>
    cases obj.boolAt keyActivate <;> cases obj.stringAt keyDestTopic <;> rfl

theorem parseStrings_eq (obj : Object) {last : String}
    (build : String → String → String → Command) (next : Except Fault (Option Command))
    (hnd : ((stringFields last).map Prod.fst).Nodup) :
    parseCase obj (stringFields last) (readStrings last build) next = do
      let protocol ← need keyProtocol (obj.stringAt keyProtocol)
      let channelName ← need keyChannelName (obj.stringAt keyChannelName)
      let value ← need last (obj.stringAt last)
      return some (build protocol channelName value) := by
  have hprotocol : (keyProtocol, Kind.string) ∈ stringFields last := by simp [stringFields]
  have hchannel : (keyChannelName, Kind.string) ∈ stringFields last := by simp [stringFields]
  have hlast : (last, Kind.string) ∈ stringFields last := by simp [stringFields]
  rw [parseCase, checkFields]
  simp only [readStrings, readString_collect hnd hprotocol, readString_collect hnd hchannel,
    readString_collect hnd hlast]
  cases obj.stringAt keyProtocol <;> cases obj.stringAt keyChannelName <;>
    cases obj.stringAt last <;> rfl

/-! ## What is accepted, and what is not -/

theorem getCMDType_eq_ok_iff {type : CommandType} (htype : type ≠ .unknown) :
    getCMDType obj = .ok type ↔ obj.stringAt keyCommand = some type.toString := by
  rw [getCMDType, Object.stringAt]
  cases obj.ifContains keyCommand with
  | none => simpa using htype.symm
  | some v =>
    cases v with
    | string cmd =>
      simp only [Option.some_inj]
      constructor
      · intro h
        split_ifs at h with h1 h2 h3 h4 <;> cases h
        exacts [h1, h2, h3, h4, absurd rfl htype]
      · rintro rfl
        cases type <;> rfl
    | _ => simp

theorem forall_monitorFields : (∀ field ∈ monitorFields, obj.HasField field) ↔
    (obj.boolAt keyActivate).isSome ∧ (obj.stringAt keyProtocol).isSome ∧
      (obj.stringAt keyChannelName).isSome ∧ (obj.stringAt keyDestTopic).isSome := by
  simp [monitorFields, Object.hasField_string, Object.hasField_bool]

theorem forall_stringFields {last : String} :
    (∀ field ∈ stringFields last, obj.HasField field) ↔
      (obj.stringAt keyProtocol).isSome ∧ (obj.stringAt keyChannelName).isSome ∧
        (obj.stringAt last).isSome := by
  simp [stringFields, Object.hasField_string]

/-- The outcome of a case of `parse`, against the fields it requires: a command when they are all
there, the end iterator when one is not. -/
def CaseOutcome (obj : Object) (fields : List (String × Kind))
    (r : Except Fault (Option Command)) : Prop :=
  (∃ c, r = .ok (some c) ∧ ∀ field ∈ fields, obj.HasField field) ∨
    (∃ key, r = .error (.endIterator key) ∧ ¬ ∀ field ∈ fields, obj.HasField field)

theorem caseOutcome_monitor (obj : Object) :
    CaseOutcome obj monitorFields (parseMonitor obj) := by
  rw [CaseOutcome, parseMonitor_eq, forall_monitorFields]
  cases obj.stringAt keyProtocol with
  | none => exact Or.inr ⟨keyProtocol, rfl, by simp⟩
  | some protocol =>
    cases obj.stringAt keyChannelName with
    | none => exact Or.inr ⟨keyChannelName, rfl, by simp⟩
    | some channelName =>
      cases obj.boolAt keyActivate with
      | none => exact Or.inr ⟨keyActivate, rfl, by simp⟩
      | some activate =>
        cases obj.stringAt keyDestTopic with
        | none => exact Or.inr ⟨keyDestTopic, rfl, by simp⟩
        | some destinationTopic => exact Or.inl ⟨_, rfl, by simp⟩

theorem caseOutcome_strings (obj : Object) {last : String}
    (build : String → String → String → Command) (next : Except Fault (Option Command))
    (hnd : ((stringFields last).map Prod.fst).Nodup) :
    CaseOutcome obj (stringFields last)
      (parseCase obj (stringFields last) (readStrings last build) next) := by
  rw [CaseOutcome, parseStrings_eq obj build next hnd, forall_stringFields]
  cases obj.stringAt keyProtocol with
  | none => exact Or.inr ⟨keyProtocol, rfl, by simp⟩
  | some protocol =>
    cases obj.stringAt keyChannelName with
    | none => exact Or.inr ⟨keyChannelName, rfl, by simp⟩
    | some channelName =>
      cases obj.stringAt last with
      | none => exact Or.inr ⟨last, rfl, by simp⟩
      | some value => exact Or.inl ⟨_, rfl, by simp⟩

/-- **What `parse` makes of a recognised type.** -/
theorem caseOutcome_parse {type : CommandType} (htype : type ≠ .unknown)
    (h : getCMDType obj = .ok type) : CaseOutcome obj (requiredFields type) (parse obj) := by
  rw [parse, h]
  cases type with
  | monitor => exact caseOutcome_monitor obj
  | get => exact caseOutcome_strings obj _ (parsePut obj) (nodup_requiredFields .get)
  | put => exact caseOutcome_strings obj _ (parseInfo obj) (nodup_requiredFields .put)
  | info => exact caseOutcome_strings obj _ parseUnknown (nodup_requiredFields .info)
  | unknown => exact absurd rfl htype

/-- The object is a command of one of the four types, with every field that the type requires. -/
def Compliant (obj : Object) : Prop :=
  ∃ type, type ≠ CommandType.unknown ∧ obj.stringAt keyCommand = some type.toString ∧
    ∀ field ∈ requiredFields type, obj.HasField field

/-- `parse` returns a command only for a compliant object, and otherwise returns null or throws; it
never reads a field that was not collected. -/
def RejectsMalformed (obj : Object) : Prop :=
  match parse obj with
  | .ok (some _) => Compliant obj
  | .ok none => True
  | .error (.exception _) => True
  | .error (.endIterator _) => False

/-- **Malformed objects are rejected exactly when they do not get as far as a case**: an object
that names one of the four types has to have all the fields of that type. -/
theorem rejectsMalformed_iff (obj : Object) :
    RejectsMalformed obj ↔
      ∀ type, type ≠ CommandType.unknown → obj.stringAt keyCommand = some type.toString →
        ∀ field ∈ requiredFields type, obj.HasField field := by
  constructor
  · intro h type htype hcmd
    rcases caseOutcome_parse htype ((getCMDType_eq_ok_iff htype).mpr hcmd) with
      ⟨_, -, hall⟩ | ⟨key, hkey, -⟩
    · exact hall
    · rw [RejectsMalformed, hkey] at h
      exact h.elim
  · intro h
    rw [RejectsMalformed]
    cases hty : getCMDType obj with
    | error fault =>
      -- `as_string` threw: the only fault `getCMDType` raises is an exception
      have hp : parse obj = .error fault := by rw [parse, hty]; rfl
      rw [hp]
      rw [getCMDType] at hty
      split at hty
      · cases hty
      · split_ifs at hty
      · cases hty
        trivial
    | ok type =>
      by_cases htype : type = .unknown
      · have hp : parse obj = .ok none := by rw [parse, hty, htype]; rfl
        rw [hp]
        trivial
      · have hcmd := (getCMDType_eq_ok_iff htype).mp hty
        rcases caseOutcome_parse htype hty with ⟨c, hc, hall⟩ | ⟨_, -, hmiss⟩
        · rw [hc]
          exact ⟨type, htype, hcmd, hall⟩
        · exact absurd (h type htype hcmd) hmiss

/-- A get command that names no channel: the first read goes through the end iterator. -/
theorem not_rejectsMalformed_bare_get :
    ¬ RejectsMalformed ⟨[(keyCommand, .string "get")], by decide⟩ := by
  have h : parse ⟨[(keyCommand, .string "get")], by decide⟩ =
      .error (.endIterator keyProtocol) := by rfl
  rw [RejectsMalformed, h]
  exact id

/-! ## What a command is decoded from -/

/-- The object says the three things that a get, a put or an info command is made of. -/
def DescribesStrings (obj : Object) (last protocol channelName value : String) : Prop :=
  obj.ifContains keyProtocol = some (.string protocol) ∧
    obj.ifContains keyChannelName = some (.string channelName) ∧
    obj.ifContains last = some (.string value)

/-- The values of the command are the ones of the corresponding members. -/
def HasValues (obj : Object) : Command → Prop
  | .monitor c =>
    obj.ifContains keyActivate = some (.bool c.activate) ∧
      DescribesStrings obj keyDestTopic c.protocol c.channelName c.destinationTopic
  | .get c => DescribesStrings obj keyDestTopic c.protocol c.channelName c.destinationTopic
  | .put c => DescribesStrings obj keyValue c.protocol c.channelName c.value
  | .info c => DescribesStrings obj keyDestTopic c.protocol c.channelName c.destinationTopic

/-- The object describes the command: its type, and its values. -/
def Describes (obj : Object) (c : Command) : Prop :=
  obj.ifContains keyCommand = some (.string c.type.toString) ∧ HasValues obj c

theorem need_bind_eq_ok {α β : Type} {o : Option α} {f : α → Except Fault β} {b : β} :
    (need key o >>= f) = .ok b ↔ ∃ a, o = some a ∧ f a = .ok b := by
  cases o with
  | none => exact iff_of_false nofun (by simp)
  | some a => simp [need, bind, Except.bind]

theorem parseMonitor_eq_ok {c : Command} :
    parseMonitor obj = .ok (some c) ↔ ∃ a : AquireCommand, c = .monitor a ∧
      obj.ifContains keyActivate = some (.bool a.activate) ∧
      DescribesStrings obj keyDestTopic a.protocol a.channelName a.destinationTopic := by
  simp only [parseMonitor_eq, need_bind_eq_ok, Object.stringAt_eq_some, Object.boolAt_eq_some]
  constructor
  · rintro ⟨protocol, hprotocol, channelName, hchannel, activate, hactivate, destinationTopic,
      hdest, hc⟩
    cases hc
    exact ⟨_, rfl, hactivate, hprotocol, hchannel, hdest⟩
  · rintro ⟨a, rfl, hactivate, hprotocol, hchannel, hdest⟩
    exact ⟨_, hprotocol, _, hchannel, _, hactivate, _, hdest, rfl⟩

theorem parseStrings_eq_ok {last : String} {build : String → String → String → Command}
    (next : Except Fault (Option Command)) {c : Command}
    (hnd : ((stringFields last).map Prod.fst).Nodup) :
    parseCase obj (stringFields last) (readStrings last build) next = .ok (some c) ↔
      ∃ protocol channelName value, c = build protocol channelName value ∧
        DescribesStrings obj last protocol channelName value := by
  simp only [parseStrings_eq obj build next hnd, need_bind_eq_ok, Object.stringAt_eq_some]
  constructor
  · rintro ⟨protocol, hprotocol, channelName, hchannel, value, hvalue, hc⟩
    cases hc
    exact ⟨_, _, _, rfl, hprotocol, hchannel, hvalue⟩
  · rintro ⟨protocol, channelName, value, rfl, hprotocol, hchannel, hvalue⟩
    exact ⟨_, hprotocol, _, hchannel, _, hvalue, rfl⟩

/-- **What a case of `parse` returns**: a command of its type, with the values of the members. -/
theorem parse_eq_ok_of_type {type : CommandType} {c : Command} (htype : type ≠ .unknown)
    (h : getCMDType obj = .ok type) :
    parse obj = .ok (some c) ↔ c.type = type ∧ HasValues obj c := by
  rw [parse, h]
  cases type with
  | monitor =>
    refine parseMonitor_eq_ok.trans ?_
    cases c <;> simp [Command.type, HasValues]
  | get =>
    refine (parseStrings_eq_ok (parsePut obj) (nodup_requiredFields .get)).trans ?_
    rcases c with a | ⟨protocol, channelName, value⟩ | a | a <;> simp [Command.type, HasValues]
  | put =>
    refine (parseStrings_eq_ok (parseInfo obj) (nodup_requiredFields .put)).trans ?_
    rcases c with a | a | ⟨protocol, channelName, value⟩ | a <;> simp [Command.type, HasValues]
  | info =>
    refine (parseStrings_eq_ok parseUnknown (nodup_requiredFields .info)).trans ?_
    rcases c with a | a | a | ⟨protocol, channelName, value⟩ <;> simp [Command.type, HasValues]
  | unknown => exact absurd rfl htype

theorem type_ne_unknown (c : Command) : c.type ≠ .unknown := by
  cases c <;> exact nofun

/-- **`parse` returns a command exactly for the objects that describe it.** -/
theorem parse_eq_ok_iff {c : Command} : parse obj = .ok (some c) ↔ Describes obj c := by
  have htype := type_ne_unknown c
  rw [Describes, ← Object.stringAt_eq_some, ← getCMDType_eq_ok_iff htype]
  refine ⟨fun hparse ↦ ?_,
    fun ⟨hcmd, hvalues⟩ ↦ (parse_eq_ok_of_type htype hcmd).mpr ⟨rfl, hvalues⟩⟩
  cases hty : getCMDType obj with
  | error fault =>
    rw [parse, hty] at hparse
    cases hparse
  | ok type =>
    by_cases hunknown : type = .unknown
    · rw [parse, hty, hunknown] at hparse
      cases hparse
    · obtain ⟨rfl, hvalues⟩ := (parse_eq_ok_of_type hunknown hty).mp hparse
      exact ⟨rfl, hvalues⟩

theorem DescribesStrings.congr {obj' : Object} {last protocol channelName value : String}
    (h : DescribesStrings obj last protocol channelName value)
    (hagree : ∀ key ∈ (stringFields last).map Prod.fst,
      obj'.ifContains key = obj.ifContains key) :
    DescribesStrings obj' last protocol channelName value := by
  obtain ⟨hprotocol, hchannel, hlast⟩ := h
  exact ⟨(hagree keyProtocol (by simp [stringFields])).trans hprotocol,
    (hagree keyChannelName (by simp [stringFields])).trans hchannel,
    (hagree last (by simp [stringFields])).trans hlast⟩

/-- Only the command member and the required ones are looked at. -/
theorem Describes.congr {obj' : Object} {c : Command} (h : Describes obj c)
    (hagree : ∀ key ∈ keyCommand :: (requiredFields c.type).map Prod.fst,
      obj'.ifContains key = obj.ifContains key) : Describes obj' c := by
  obtain ⟨hcmd, hvalues⟩ := h
  obtain ⟨hcommand, hfields⟩ := List.forall_mem_cons.mp hagree
  refine ⟨hcommand.trans hcmd, ?_⟩
  cases c with
  | monitor a =>
    obtain ⟨hactivate, hstrings⟩ := List.forall_mem_cons.mp hfields
    exact ⟨hactivate.trans hvalues.1, hvalues.2.congr hstrings⟩
  | get a | put a | info a => exact DescribesStrings.congr hvalues hfields

/-- **Well-formed commands are decoded exactly**: the command has the type and the values of the
members, and whatever else the object has does not matter. -/
theorem parse_of_compliant (h : Compliant obj) :
    ∃ c, parse obj = .ok (some c) ∧ Describes obj c ∧
      ∀ obj' : Object, (∀ key ∈ keyCommand :: (requiredFields c.type).map Prod.fst,
        obj'.ifContains key = obj.ifContains key) → parse obj' = .ok (some c) := by
  obtain ⟨type, htype, hcmd, hall⟩ := h
  rcases caseOutcome_parse htype ((getCMDType_eq_ok_iff htype).mpr hcmd) with
    ⟨c, hparse, -⟩ | ⟨_, -, hmiss⟩
  · have hdescribes := parse_eq_ok_iff.mp hparse
    exact ⟨c, hparse, hdescribes, fun obj' hagree ↦
      parse_eq_ok_iff.mpr (hdescribes.congr hagree)⟩
  · exact absurd hall hmiss

/-- A monitor command with a member that no command has, and its topic before its type. -/
theorem parse_of_compliant_acquire :
    ∃ c, parse ⟨[(keyDestTopic, .string "topic-dest"), ("user", .null), (keyActivate, .bool true),
          (keyCommand, .string "monitor"), (keyProtocol, .string "pv"),
          (keyChannelName, .string "channel::a")], by decide⟩ = .ok (some c) ∧
      c = .monitor ⟨"pv", "channel::a", true, "topic-dest"⟩ := by
  have hcompliant : Compliant ⟨[(keyDestTopic, .string "topic-dest"), ("user", .null),
      (keyActivate, .bool true), (keyCommand, .string "monitor"), (keyProtocol, .string "pv"),
      (keyChannelName, .string "channel::a")], by decide⟩ :=
    ⟨.monitor, nofun, rfl, by decide⟩
  obtain ⟨c, hparse, -⟩ := parse_of_compliant hcompliant
  exact ⟨c, hparse, (Option.some_inj.mp (Except.ok.inj hparse)).symm⟩

end MapToCommand

end Ekg
