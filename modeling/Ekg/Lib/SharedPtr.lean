import Mathlib.Data.List.Basic

/-!
# Shared pointers with named owners

A `SharedPtr` is here what all the shared pointers to one object have in common: the list of those
who own one.  Owners have names of a type `η` of the client's choice, so that an invariant can say
who the owners are and not only how many there are; the use count is the length of the list.  A weak
pointer needs no state of its own: `lock` succeeds as long as the use count is not 0.
-/

set_option autoImplicit false

universe u

/-- The owners of an object, the youngest first. -/
structure SharedPtr (η : Type u) where
  owners : List η
  deriving DecidableEq, Repr

namespace SharedPtr

variable {η : Type u} {p q : SharedPtr η} {o : η}

/-- A pointer that nobody holds. -/
def null : SharedPtr η := ⟨[]⟩

/-- `use_count`. -/
def useCount (p : SharedPtr η) : ℕ := p.owners.length

/-- `o` gets a copy. -/
def copy (o : η) (p : SharedPtr η) : SharedPtr η := ⟨o :: p.owners⟩

/-- `o` gives a copy back. -/
def reset [DecidableEq η] (o : η) (p : SharedPtr η) : SharedPtr η := ⟨p.owners.erase o⟩

/-- `weak_ptr::expired`. -/
def expired (p : SharedPtr η) : Bool := p.useCount == 0

/-- `weak_ptr::lock`: `o` becomes an owner, unless there is none left. -/
def lock (o : η) (p : SharedPtr η) : Option (SharedPtr η) :=
  if p.expired then none else some (p.copy o)

theorem expired_iff : p.expired = true ↔ ∀ o, o ∉ p.owners := by
  rw [expired, beq_iff_eq, useCount, List.length_eq_zero_iff, List.eq_nil_iff_forall_not_mem]

theorem lock_eq_some_iff : p.lock o = some q ↔ (∃ o', o' ∈ p.owners) ∧ q = p.copy o := by
  rw [lock]
  split
  · rename_i h
    simp [expired_iff.mp h]
  · rename_i h
    rw [expired_iff, not_forall_not] at h
    simp [h, eq_comm]

end SharedPtr
