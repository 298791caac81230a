import Mathlib.Data.List.Basic

/-!
# The broadcaster

`broadcaster` keeps weak pointers to the registered handlers; the only strong pointer is the token
that `registerHandler` returned.  A target is named here by the number of its registration, and
whether its token is still held is a function of the state `σ` of everything outside the
broadcaster, since a handler may drop tokens while it runs.
-/

set_option autoImplicit false

namespace Ekg

universe u v

/-- A `broadcaster`: its `targets`, and how many handlers were registered so far. -/
structure Broadcaster where
  /-- The weak pointers, in registration order. -/
  targets : List ℕ := []
  /-- The number of the next registration. -/
  registered : ℕ := 0
  deriving DecidableEq, Repr

namespace Broadcaster

/-- `registerHandler`: the new target, and its token. -/
def registerHandler (b : Broadcaster) : Broadcaster × ℕ :=
  ({ targets := b.targets ++ [b.registered], registered := b.registered + 1 }, b.registered)

/-- `purge`: erase the targets whose token has expired. -/
def purge (alive : ℕ → Bool) (b : Broadcaster) : Broadcaster :=
  { b with targets := b.targets.filter alive }

variable {σ : Type u} {ε : Type v}

/-- The loop of `broadcast`: lock each target, and call the handler if the lock succeeds. -/
def callTargets (alive : σ → ℕ → Bool) (handler : ℕ → ε → σ → σ) (args : ε) (targets : List ℕ)
    (s : σ) : σ :=
  targets.foldl (fun s wp ↦ if alive s wp then handler wp args s else s) s

/-- `broadcast`. -/
def broadcast (alive : σ → ℕ → Bool) (handler : ℕ → ε → σ → σ) (args : ε) (b : Broadcaster)
    (s : σ) : Broadcaster × σ :=
  let b := b.purge (alive s)
  (b, callTargets alive handler args b.targets s)

/-- When one handler is live and stays so, a broadcast calls that handler once. -/
theorem broadcast_single {alive : ℕ → Bool} {handler : ℕ → ε → σ → σ} {b : Broadcaster} {wp : ℕ}
    (h : b.targets.filter alive = [wp]) (args : ε) (s : σ) :
    (broadcast (fun _ ↦ alive) handler args b s).2 = handler wp args s := by
  have hwp : alive wp = true := (List.mem_filter.mp (h ▸ List.mem_singleton_self wp)).2
  simp only [broadcast, purge, h, callTargets, List.foldl_cons, List.foldl_nil, hwp, if_true]

@[simp] theorem broadcast_fst (alive : σ → ℕ → Bool) (handler : ℕ → ε → σ → σ) (args : ε)
    (b : Broadcaster) (s : σ) :
    (broadcast alive handler args b s).1 = b.purge (alive s) := rfl

end Broadcaster

end Ekg
