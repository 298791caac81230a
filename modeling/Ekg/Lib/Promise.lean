import Mathlib.Data.List.Basic
import Mathlib.Data.Multiset.Filter

/-!
# Promises and futures

A promise and its future share a state.  The promise makes it ready, with a value or with an
exception, and it does so once: to do it again throws.  A promise that is destroyed before that
breaks, and the future throws in its turn.

Somebody who asks several futures for their values, one after the other, gets the values in this
order, or the exception of the first future that has one.  That is `List.mapM id` in `Except`, and
`mapM_flatMap` says that it does not matter whether a loop is divided, as long as its parts are put
together in order.

The promises of a program are told apart by numbers here, and `eq_of_nodup` is what it means that
no number is given twice.
-/

set_option autoImplicit false

namespace Promise

universe u v w x

/-- What `get` throws. -/
inductive FutureError (ε : Type u)
  /-- The exception that the promise was given. -/
  | thrown (e : ε)
  | promiseAlreadySatisfied
  | brokenPromise
  deriving DecidableEq, Repr

/-- What a promise and its future share: `none` until it is ready. -/
abbrev SharedState (ε : Type u) (ρ : Type v) := Option (Except (FutureError ε) ρ)

variable {ε : Type u} {ρ : Type v}

/-- `set_value` and `set_exception`. -/
def satisfy (outcome : Except (FutureError ε) ρ) :
    SharedState ε ρ → Except (FutureError ε) (SharedState ε ρ)
  | none => .ok (some outcome)
  | some _ => .error .promiseAlreadySatisfied

/-- The destructor of the promise. -/
def abandon : SharedState ε ρ → SharedState ε ρ
  | none => some (.error .brokenPromise)
  | some outcome => some outcome

/-! ## Several futures, one after the other -/

/-- All of them have values. -/
theorem mapM_id_map_ok (results : List ρ) :
    (results.map (.ok : ρ → Except ε ρ)).mapM id = .ok results := by
  induction results with
  | nil => rfl
  | cons r results ih =>
    rw [List.map_cons, List.mapM_cons, ih]
    rfl

/-- The first exception ends it. -/
theorem mapM_id_error (results : List ρ) (e : ε) (rest : List (Except ε ρ)) :
    (results.map Except.ok ++ Except.error e :: rest).mapM id = .error e := by
  rw [List.mapM_append, mapM_id_map_ok, List.mapM_cons]
  rfl

/-- **A loop that may throw can be divided.**  The parts have the results that the loop has, or the
first of them that throws throws what the loop does. -/
theorem mapM_flatMap {α : Type u} {β : Type v} {γ : Type x} {m : Type v → Type w} [Monad m]
    [LawfulMonad m] (f : γ → m β) (parts : α → List γ) (l : List α) :
    (l.flatMap parts).mapM f = List.flatten <$> l.mapM fun a ↦ (parts a).mapM f := by
  induction l with
  | nil => simp
  | cons a l ih => simp [ih, List.mapM_append]

/-! ## The numbers of the promises -/

/-- Only one thing has a number that is given once. -/
theorem eq_of_nodup {α : Type u} {β : Type v} {f : α → Option β} {s : Multiset α} {a b : α} {n : β}
    (h : (s.filterMap f).Nodup) (ha : a ∈ s) (hb : b ∈ s) (hfa : f a = some n)
    (hfb : f b = some n) : a = b := by
  by_contra hne
  obtain ⟨s, rfl⟩ := Multiset.exists_cons_of_mem ha
  have hb' : b ∈ s := (Multiset.mem_cons.mp hb).resolve_left (Ne.symm hne)
  rw [Multiset.filterMap_cons_some f a s hfa, Multiset.nodup_cons, Multiset.mem_filterMap] at h
  exact h.1 ⟨b, hb', hfb⟩

/-- Things that are in two places have different numbers. -/
theorem ne_of_nodup_add {α : Type u} {β : Type v} {f : α → Option β} {s t : Multiset α} {a b : α}
    {n k : β} (h : ((s + t).filterMap f).Nodup) (ha : a ∈ s) (hb : b ∈ t) (hfa : f a = some n)
    (hfb : f b = some k) : n ≠ k := by
  rintro rfl
  obtain ⟨s, rfl⟩ := Multiset.exists_cons_of_mem ha
  rw [Multiset.cons_add, Multiset.filterMap_cons_some f a _ hfa, Multiset.nodup_cons,
    Multiset.mem_filterMap] at h
  exact h.1 ⟨b, Multiset.mem_add.mpr (Or.inr hb), hfb⟩

end Promise
