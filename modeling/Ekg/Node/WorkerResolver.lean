import Ekg.Lib.FirstWrite
import Ekg.Lib.Steps
import Ekg.Node.NodeController

/-!
# The workers by their command types

`WorkerResolver` has a map from command types to workers.  `registerService` inserts into it, which
leaves an entry alone that is there already, and `resolve` is `typed_instances[type]`, which makes
an entry with a null pointer if there is none.  So who looks up a type that has no worker yet keeps
it from ever having one.

`throughout_unaffected_iff` says when the lookups are harmless.  Those of a node are
(`resolve_nodeController`): the constructor registers all the workers there will ever be, and
`submitCommand` comes later.
-/

set_option autoImplicit false

namespace Ekg

open Steps FirstWrite

universe u

/-- `WorkerResolver::typed_instances`, where an entry may hold a null pointer. -/
abbrev WorkerResolver (T : Type u) := CommandType → Option (Option T)

namespace WorkerResolver

variable {T : Type u}

/-- `WorkerResolver::registerService`. -/
def registerService (type : CommandType) (object : Option T) (m : WorkerResolver T) :
    WorkerResolver T :=
  match m type with
  | some _ => m
  | none => Function.update m type (some object)

/-- `WorkerResolver::resolve`. -/
def resolve (type : CommandType) (m : WorkerResolver T) : WorkerResolver T × Option T :=
  match m type with
  | some object => (m, object)
  | none => (Function.update m type (some none), none)

/-- A call, where no null pointer is registered. -/
inductive Call (T : Type u)
  | registerService (type : CommandType) (object : T)
  | resolve (type : CommandType)
  deriving DecidableEq, Repr

/-- What a call does to the map. -/
def exec : Call T → WorkerResolver T → WorkerResolver T
  | .registerService type object, m => registerService type (some object) m
  | .resolve type, m => (resolve type m).1

/-- The map after some calls. -/
def after (calls : List (Call T)) : WorkerResolver T :=
  calls.foldl (fun m call ↦ exec call m) fun _ ↦ none

/-! ## What the map holds -/

/-- The type that a call is about. -/
def Call.type : Call T → CommandType
  | registerService type _ => type
  | resolve type => type

/-- What a call puts into the map if there is no entry. -/
def Call.entry : Call T → Option T
  | registerService _ object => some object
  | resolve _ => none

/-- The call is a registration. -/
def Call.isRegistration : Call T → Bool
  | registerService _ _ => true
  | resolve _ => false

/-- What a call has for the entry of a type. -/
def writes (type : CommandType) (call : Call T) : Option (Option T) :=
  if call.type = type then some call.entry else none

variable {type : CommandType} {calls done : List (Call T)} {worker : T}

/-- A registration and a lookup are insertions, the lookup one of a null pointer. -/
theorem exec_eq (call : Call T) (m : WorkerResolver T) :
    exec call m = insertNew call.type call.entry m := by
  cases call with
  | registerService type object =>
    simp only [exec, registerService, Call.type, Call.entry, insertNew]
    cases m type <;> rfl
  | resolve type =>
    simp only [exec, resolve, Call.type, Call.entry, insertNew]
    cases m type <;> rfl

theorem inserts_exec :
    Inserts (fun m call ↦ exec call m) (fun (m : WorkerResolver T) type ↦ m type) writes :=
  fun m call type ↦ (congrFun (exec_eq call m) type).trans (insertNew_apply _ _ m type)

/-- **The first call about a type decides what the map holds for it.** -/
theorem after_apply (calls : List (Call T)) (type : CommandType) :
    after calls type = calls.findSome? (writes type) :=
  (inserts_exec.obs_foldl _ calls type).trans (Option.none_or)

theorem resolve_snd (m : WorkerResolver T) : (resolve type m).2 = (m type).join := by
  unfold resolve
  cases m type <;> rfl

/-! ## What a lookup returns -/

/-- The worker that a call registers for the type, if it does. -/
def registers (type : CommandType) (call : Call T) : Option T :=
  if call.type = type then call.entry else none

@[simp] theorem registers_resolve (type type' : CommandType) :
    registers type (.resolve type' : Call T) = none := ite_self none

/-- The first worker that was registered for a type. -/
def firstRegistered (type : CommandType) (calls : List (Call T)) : Option T :=
  calls.findSome? (registers type)

/-- What a lookup should return after the calls `done`: the first worker that was registered, which
is what it would return if nobody had looked up anything. -/
structure Unaffected (done : List (Call T)) (type : CommandType) : Prop where
  first : (resolve type (after done)).2 = firstRegistered type done
  independent : (resolve type (after done)).2 =
    (resolve type (after (done.filter Call.isRegistration))).2

/-- The type was not looked up before its first worker was registered. -/
def Unspoiled (done : List (Call T)) (type : CommandType) : Prop :=
  ∀ worker, firstRegistered type done = some worker →
    (done.find? fun call ↦ call.type = type) = some (.registerService type worker)

/-- Without the lookups, the first worker is found. -/
theorem resolve_filter (done : List (Call T)) (type : CommandType) :
    (resolve type (after (done.filter Call.isRegistration))).2 = firstRegistered type done := by
  rw [resolve_snd, after_apply, firstRegistered]
  induction done with
  | nil => rfl
  | cons call done ih =>
    cases call with
    | registerService type' object =>
      rw [List.filter_cons_of_pos rfl, List.findSome?_cons, List.findSome?_cons, writes, registers]
      by_cases htype : type' = type
      · simp [Call.type, Call.entry, htype]
      · simpa [Call.type, htype] using ih
    | resolve type' =>
      rw [List.filter_cons_of_neg Bool.false_ne_true, List.findSome?_cons, registers_resolve]
      exact ih

/-- A lookup finds a worker exactly when the first call about the type has registered it. -/
theorem resolve_eq_some :
    (resolve type (after done)).2 = some worker ↔
      (done.find? fun call ↦ call.type = type) = some (.registerService type worker) := by
  have hafter : after done type = (done.find? fun call ↦ call.type = type).map Call.entry :=
    inserts_exec.obs_foldl_eq_find? rfl fun call ↦ by simp only [writes, decide_eq_true_eq]
  rw [resolve_snd, hafter, Option.join_eq_some_iff, Option.map_eq_some_iff]
  refine ⟨fun ⟨call, hfind, hentry⟩ ↦ ?_, fun hfind ↦ ⟨_, hfind, rfl⟩⟩
  have htype := List.find?_some hfind
  rw [hfind]
  cases call with
  | registerService type' object =>
    obtain rfl : type' = type := of_decide_eq_true htype
    rw [Option.some_inj.mp hentry]
  | resolve type' => cases hentry

theorem firstRegistered_of_find?
    (h : (done.find? fun call ↦ call.type = type) = some (.registerService type worker)) :
    firstRegistered type done = some worker := by
  obtain ⟨-, before, rest, rfl, hbefore⟩ := List.find?_eq_some_iff_append.mp h
  have hnone : before.findSome? (registers type) = none := by
    rw [List.findSome?_eq_none_iff]
    intro call hcall
    have hne : (!decide (call.type = type)) = true := hbefore call hcall
    exact if_neg (by simpa using hne)
  rw [firstRegistered, List.findSome?_append, hnone, Option.none_or]
  simp [registers, Call.type, Call.entry]

theorem unaffected_iff : Unaffected done type ↔ Unspoiled done type := by
  refine ⟨fun h worker hfirst ↦ resolve_eq_some.mp (h.first.trans hfirst), fun h ↦ ?_⟩
  have hfirst : (resolve type (after done)).2 = firstRegistered type done := by
    refine Option.ext fun worker ↦ ⟨fun hresolve ↦ ?_, fun hfirst ↦ ?_⟩
    · exact firstRegistered_of_find? (resolve_eq_some.mp hresolve)
    · exact resolve_eq_some.mpr (h worker hfirst)
  exact ⟨hfirst, hfirst.trans (resolve_filter done type).symm⟩

/-- **When looking up a worker never affects registration**: when no type is looked up before its
first worker is registered. -/
theorem throughout_unaffected_iff (calls : List (Call T)) :
    Throughout (fun done call ↦ ∀ type, call = .resolve type → Unaffected done type) calls ↔
      Throughout (fun done call ↦ ∀ type, call = .resolve type → Unspoiled done type) calls := by
  simp only [unaffected_iff]

/-- A command that comes before its worker. -/
theorem not_throughout_unaffected :
    ¬ Throughout (fun done call ↦ ∀ type, call = .resolve type → Unaffected done type)
      [.resolve .put, .registerService .put "putCommandWorker", .resolve .put] := by
  intro h
  have hput := h [.resolve .put, .registerService .put "putCommandWorker"] (.resolve .put) [] rfl
    .put rfl
  exact absurd hput.first (by decide)

/-! ## The resolver of a node -/

/-- What the constructor of the node controller does. -/
def nodeController : List (Call Worker) :=
  [.registerService .monitor .acquireCommandWorker, .registerService .get .getCommandWorker]

/-- **The lookups of `submitCommand` are harmless**: whatever types were looked up before, a lookup
returns what the constructor has registered. -/
theorem resolve_nodeController (types : List CommandType) (type : CommandType) :
    (resolve type (after (nodeController ++ types.map .resolve))).2 = resolveWorker type := by
  have hlookups : (types.map Call.resolve).findSome? (registers (T := Worker) type) = none := by
    simp
  have hfirst : firstRegistered type (nodeController ++ types.map .resolve) =
      resolveWorker type := by
    rw [firstRegistered, List.findSome?_append, hlookups, Option.or_none]
    cases type <;> rfl
  have hunspoiled : Unspoiled (nodeController ++ types.map .resolve) type := by
    intro worker hworker
    rw [hfirst] at hworker
    cases type with
    | monitor | get =>
      cases hworker
      rfl
    | _ => cases hworker
  exact (unaffected_iff.mpr hunspoiled).first.trans hfirst

end WorkerResolver

end Ekg
