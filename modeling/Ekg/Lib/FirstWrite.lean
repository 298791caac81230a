import Mathlib.Data.List.Induction
import Mathlib.Logic.Function.Basic
import Std.Data.ExtTreeMap

/-!
# First-writer-wins histories

A history is a list of operations, oldest first.  A store is *first-writer-wins* when an operation
leaves alone what is there, and writes only where there is nothing: a map whose insertion does not
replace an entry is one.  `writes k c` is what the operation `c` has for the key `k`, if it has
anything.

The rules a client uses are

* `Inserts.obs_foldl`: what is there in the end is what was there, or else what the first operation
  had that had anything;
* `Inserts.obs_foldl_eq_find?`: the same for operations each of which is about a key or not;
* `Inserts.obs_foldl_eq_some_iff`: if all the operations that have something for a key have the
  same, then the order of the history does not matter there, nor does repetition.
-/

set_option autoImplicit false

namespace FirstWrite

universe u v w x

variable {α : Type u} {κ : Type v} {ν : Type w} {σ : Type x}

/-- An operation of the store writes what it has for a key, if nothing is there. -/
def Inserts (step : σ → α → σ) (obs : σ → κ → Option ν) (writes : κ → α → Option ν) : Prop :=
  ∀ s c k, obs (step s c) k = (obs s k).or (writes k c)

variable {step : σ → α → σ} {obs : σ → κ → Option ν} {writes : κ → α → Option ν} {s : σ}
  {cs : List α} {k : κ} {v : ν}

/-- **The first-writer rule.** -/
theorem Inserts.obs_foldl (h : Inserts step obs writes) (s : σ) (cs : List α) (k : κ) :
    obs (cs.foldl step s) k = (obs s k).or (cs.findSome? (writes k)) := by
  induction cs using List.reverseRecOn with
  | nil => simp
  | append_singleton cs c ih =>
    rw [List.foldl_append, List.foldl_cons, List.foldl_nil, h, ih, Option.or_assoc,
      List.findSome?_append]
    rcases hc : writes k c with _ | v <;> simp [hc]

/-- **Where the writers agree, it does not matter who is the first.** -/
theorem Inserts.obs_foldl_eq_some_iff (h : Inserts step obs writes) (hs : obs s k = none)
    (hagree : ∀ c ∈ cs, ∀ d ∈ cs, ∀ v w, writes k c = some v → writes k d = some w → v = w) :
    obs (cs.foldl step s) k = some v ↔ ∃ c ∈ cs, writes k c = some v := by
  rw [h.obs_foldl, hs, Option.none_or]
  refine ⟨List.exists_of_findSome?_eq_some, fun ⟨c, hc, hv⟩ ↦ ?_⟩
  have hsome : (cs.findSome? (writes k)).isSome = true :=
    List.findSome?_isSome_iff.mpr ⟨c, hc, by simp [hv]⟩
  obtain ⟨w, hw⟩ := Option.isSome_iff_exists.mp hsome
  obtain ⟨d, hd, hdw⟩ := List.exists_of_findSome?_eq_some hw
  rw [hw, hagree c hc d hd v w hv hdw]

/-- The first operation that has anything, when what an operation has does not depend on what
makes it have something. -/
theorem findSome?_ite (p : α → Bool) (val : α → ν) (cs : List α) :
    (cs.findSome? fun c ↦ if p c then some (val c) else none) = (cs.find? p).map val := by
  induction cs with
  | nil => rfl
  | cons c cs ih =>
    rw [List.findSome?_cons, List.find?_cons, ih]
    cases p c <;> rfl

/-- **The first-writer rule for operations that are about a key or not.**  What is there in the end
is what the first operation has that is about the key. -/
theorem Inserts.obs_foldl_eq_find? (h : Inserts step obs writes) (hs : obs s k = none)
    {about : α → Bool} {val : α → ν}
    (hwrites : ∀ c, writes k c = if about c then some (val c) else none) :
    obs (cs.foldl step s) k = (cs.find? about).map val := by
  have hfun : writes k = fun c ↦ if about c then some (val c) else none := funext hwrites
  rw [h.obs_foldl, hs, Option.none_or, hfun, findSome?_ite]

/-- Insertion into a map, if the key is new. -/
theorem getElem?_insertIfNew {cmp : κ → κ → Ordering} [Std.TransCmp cmp] [Std.LawfulEqCmp cmp]
    [DecidableEq κ] (map : Std.ExtTreeMap κ ν cmp) (key : κ) (value : ν) (k : κ) :
    (map.insertIfNew key value)[k]? = map[k]?.or (if key = k then some value else none) := by
  simp only [Std.ExtTreeMap.getElem?_insertIfNew, Std.LawfulEqCmp.compare_eq_iff_eq]
  by_cases hk : key = k
  · subst hk
    by_cases hmem : key ∈ map <;> simp [hmem]
  · simp [hk]

/-- Insertion into a map that is given as a function, if the key is new. -/
def insertNew [DecidableEq κ] (key : κ) (value : ν) (map : κ → Option ν) : κ → Option ν :=
  match map key with
  | some _ => map
  | none => Function.update map key (some value)

theorem insertNew_apply [DecidableEq κ] (key : κ) (value : ν) (map : κ → Option ν) (k : κ) :
    insertNew key value map k = (map k).or (if key = k then some value else none) := by
  unfold insertNew
  by_cases hk : key = k
  · subst hk
    cases h : map key <;> simp [h]
  · cases map key with
    | some v => simp [hk]
    | none => simp [hk, Function.update_of_ne (Ne.symm hk)]

end FirstWrite
