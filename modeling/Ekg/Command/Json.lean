import Mathlib.Data.List.Basic
import Std.Data.ExtTreeMap

/-!
# JSON values, as the command decoder reads them

The gateway decodes commands from `boost::json` objects.  Only three things about such an object
matter to it: whether a key is there (`if_contains`), what kind the value has (`kind`), and the
value itself.  A number keeps its three kinds, and a `double` is its 64 bits, since no command
reads one.

`boost::json::object` keeps its keys distinct, and so does `Object`: the proof is a field.
-/

set_option autoImplicit false

namespace Ekg

/-- `boost::json::kind`. -/
inductive Kind
  | null | bool_ | int64 | uint64 | double_ | string | array | object
  deriving DecidableEq, Repr

/-- `boost::json::value`. -/
inductive Value
  | null
  | bool (b : Bool)
  | int64 (i : Int64)
  | uint64 (u : UInt64)
  | double (bits : UInt64)
  | string (s : String)
  | array (items : List Value)
  | object (members : List (String × Value))

/-- `value::kind`. -/
def Value.kind : Value → Kind
  | .null => .null
  | .bool _ => .bool_
  | .int64 _ => .int64
  | .uint64 _ => .uint64
  | .double _ => .double_
  | .string _ => .string
  | .array _ => .array
  | .object _ => .object

/-- `boost::json::object`: members in insertion order, under distinct keys. -/
structure Object where
  /-- The members. -/
  members : List (String × Value)
  /-- No key occurs twice. -/
  nodup : (members.map Prod.fst).Nodup

/-- `object::if_contains`. -/
def Object.ifContains (obj : Object) (key : String) : Option Value := obj.members.lookup key

/-- The string member `key`, if there is one. -/
def Object.stringAt (obj : Object) (key : String) : Option String :=
  match obj.ifContains key with
  | some (.string s) => some s
  | _ => none

/-- The boolean member `key`, if there is one. -/
def Object.boolAt (obj : Object) (key : String) : Option Bool :=
  match obj.ifContains key with
  | some (.bool b) => some b
  | _ => none

/-- The object has the field: its key is there, with a value of its kind. -/
def Object.HasField (obj : Object) (field : String × Kind) : Prop :=
  (obj.ifContains field.1).map Value.kind = some field.2

instance (obj : Object) (field : String × Kind) : Decidable (obj.HasField field) :=
  inferInstanceAs (Decidable (_ = _))

theorem Object.stringAt_eq_some {obj : Object} {key s : String} :
    obj.stringAt key = some s ↔ obj.ifContains key = some (.string s) := by
  rw [stringAt]
  cases obj.ifContains key with
  | none => simp
  | some v => cases v <;> simp

theorem Object.boolAt_eq_some {obj : Object} {key : String} {b : Bool} :
    obj.boolAt key = some b ↔ obj.ifContains key = some (.bool b) := by
  rw [boolAt]
  cases obj.ifContains key with
  | none => simp
  | some v => cases v <;> simp

theorem Object.hasField_string {obj : Object} {key : String} :
    obj.HasField (key, .string) ↔ (obj.stringAt key).isSome := by
  rw [HasField, stringAt]
  cases obj.ifContains key with
  | none => simp
  | some v => cases v <;> simp [Value.kind]

theorem Object.hasField_bool {obj : Object} {key : String} :
    obj.HasField (key, .bool_) ↔ (obj.boolAt key).isSome := by
  rw [HasField, boolAt]
  cases obj.ifContains key with
  | none => simp
  | some v => cases v <;> simp [Value.kind]

end Ekg
