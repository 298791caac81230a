import Ekg.Epics.Scan
import Ekg.Lib.SharedPtr
import Mathlib.Data.List.Induction
import Mathlib.Data.List.Perm.Subperm

/-!
# Handlers and their tokens

The token that `addHandler` returns is the shared pointer to the handler, and the broadcaster keeps
a weak one.  Tokens are copied and dropped by whoever has one, also by a handler while it runs.
During the call of a handler the loop of `broadcast` has a shared pointer of its own, which it got
from `lock`, so the handler may drop its own token.

`Tokens` are the shared pointers to all the handlers, and `handlersLaw_after` says that a handler is
called exactly while it has a token: a broadcast is the loop over all registrations there ever were,
in their order, that calls those whose token is alive when their turn comes.  How many registrations
there were is counted in the history, not read off the broadcaster.
-/

set_option autoImplicit false

namespace Ekg

universe u

/-- Who owns a shared pointer to a handler. -/
inductive HandlerOwner
  | token
  /-- `sp`, in the loop of `broadcast`. -/
  | lock
  deriving DecidableEq, Repr

/-- What can be done with the token of the registration `n`. -/
inductive TokenOp
  | copy (n : ℕ)
  | drop (n : ℕ)
  deriving DecidableEq, Repr

/-- The shared pointers to the handlers, by the number of the registration. -/
structure Tokens where
  holders : ℕ → SharedPtr HandlerOwner
  /-- The handlers that were called. -/
  calls : List ℕ

namespace Tokens

/-- No handler was registered yet. -/
def none : Tokens where
  holders := fun _ ↦ SharedPtr.null
  calls := []

/-- The token of the handler is alive. -/
def held (t : Tokens) (n : ℕ) : Bool := decide (.token ∈ (t.holders n).owners)

/-- The weak pointer has not expired. -/
def alive (t : Tokens) (n : ℕ) : Bool := !(t.holders n).expired

/-- Something happens to the pointers to a handler. -/
def update (n : ℕ) (p : SharedPtr HandlerOwner) (t : Tokens) : Tokens :=
  { t with holders := Function.update t.holders n p }

/-- A token is copied, if there is one, or dropped. -/
def exec (t : Tokens) : TokenOp → Tokens
  | .copy n => if t.held n then t.update n ((t.holders n).copy .token) else t
  | .drop n => t.update n ((t.holders n).reset .token)

/-- `lock` has given `sp` a pointer, and the handler is called. -/
def enter (n : ℕ) (t : Tokens) : Tokens :=
  { t.update n ((t.holders n).copy .lock) with calls := t.calls ++ [n] }

/-- The destructor of `sp`. -/
def leave (n : ℕ) (t : Tokens) : Tokens := t.update n ((t.holders n).reset .lock)

/-- The call of a handler that does `body n` with the tokens. -/
def call {ε : Type u} (body : ℕ → List TokenOp) (n : ℕ) (_args : ε) (t : Tokens) : Tokens :=
  ((body n).foldl exec (t.enter n)).leave n

variable {t t' : Tokens} {n k : ℕ} {op : TokenOp} {body : ℕ → List TokenOp}

@[simp] theorem holders_update_self (p : SharedPtr HandlerOwner) :
    (t.update n p).holders n = p := by
  simp [update]

@[simp] theorem holders_update_of_ne (h : k ≠ n) (p : SharedPtr HandlerOwner) :
    (t.update n p).holders k = t.holders k := by
  simp [update, h]

@[simp] theorem calls_update (p : SharedPtr HandlerOwner) : (t.update n p).calls = t.calls := rfl

/-! ## What a handler can do -/

/-- What happens to the pointers while handlers run: none of `sp`'s is gained or lost, and a token
that is gone does not come back. -/
structure Later (t t' : Tokens) : Prop where
  lock : ∀ k, (t'.holders k).owners.count .lock = (t.holders k).owners.count .lock
  held : ∀ k, t'.held k = true → t.held k = true

theorem Later.refl (t : Tokens) : Later t t := ⟨fun _ ↦ rfl, fun _ h ↦ h⟩

theorem Later.trans {t'' : Tokens} (h : Later t t') (h' : Later t' t'') : Later t t'' :=
  ⟨fun k ↦ (h'.lock k).trans (h.lock k), fun k hk ↦ h.held k (h'.held k hk)⟩

theorem held_iff : t.held n = true ↔ .token ∈ (t.holders n).owners := decide_eq_true_iff

theorem later_exec (t : Tokens) (op : TokenOp) : Later t (t.exec op) := by
  cases op with
  | copy n =>
    by_cases hheld : t.held n = true
    · rw [exec, if_pos hheld]
      refine ⟨fun k ↦ ?_, fun k hk ↦ ?_⟩
      · by_cases hkn : k = n
        · simp [hkn, SharedPtr.copy]
        · rw [holders_update_of_ne hkn]
      · by_cases hkn : k = n
        · exact hkn ▸ hheld
        · rwa [held_iff, holders_update_of_ne hkn, ← held_iff] at hk
    · rw [exec, if_neg hheld]
      exact Later.refl t
  | drop n =>
    refine ⟨fun k ↦ ?_, fun k hk ↦ ?_⟩
    · by_cases hkn : k = n
      · simp [exec, hkn, SharedPtr.reset, List.count_erase_of_ne]
      · rw [exec, holders_update_of_ne hkn]
    · rw [held_iff] at hk ⊢
      by_cases hkn : k = n
      · rw [exec, hkn, holders_update_self] at hk
        exact hkn ▸ List.mem_of_mem_erase hk
      · rwa [exec, holders_update_of_ne hkn] at hk

theorem later_foldl_exec (t : Tokens) (ops : List TokenOp) : Later t (ops.foldl exec t) := by
  induction ops generalizing t with
  | nil => exact Later.refl t
  | cons op ops ih => exact (later_exec t op).trans (ih _)

theorem calls_foldl_exec (t : Tokens) (ops : List TokenOp) :
    (ops.foldl exec t).calls = t.calls := by
  induction ops generalizing t with
  | nil => rfl
  | cons op ops ih =>
    rw [List.foldl_cons, ih]
    cases op with
    | copy n => rw [exec]; split <;> rfl
    | drop n => rfl

variable {ε : Type u} {args : ε}

theorem calls_call : (t.call body n args).calls = t.calls ++ [n] := by
  rw [call, leave, calls_update, calls_foldl_exec, enter]

theorem count_lock_enter :
    ((t.enter n).holders k).owners.count .lock =
      (t.holders k).owners.count .lock + if k = n then 1 else 0 := by
  by_cases hkn : k = n
  · simp [enter, update, hkn, SharedPtr.copy]
  · simp [enter, update, hkn]

theorem count_lock_leave :
    ((t.leave n).holders k).owners.count .lock =
      (t.holders k).owners.count .lock - if k = n then 1 else 0 := by
  by_cases hkn : k = n
  · simp [leave, update, hkn, SharedPtr.reset, List.count_erase_self]
  · simp [leave, update, hkn]

@[simp] theorem held_enter : (t.enter n).held k = t.held k := by
  by_cases hkn : k = n
  · simp [held, enter, update, hkn, SharedPtr.copy]
  · simp [held, enter, update, hkn]

@[simp] theorem held_leave : (t.leave n).held k = t.held k := by
  by_cases hkn : k = n
  · simp [held, leave, update, hkn, SharedPtr.reset, List.mem_erase_of_ne]
  · simp [held, leave, update, hkn]

/-- The call of a handler gives back the pointer of the loop, and drops tokens at most. -/
theorem later_call : Later t (t.call body n args) := by
  have hbody := later_foldl_exec (t.enter n) (body n)
  refine ⟨fun k ↦ ?_, fun k hk ↦ ?_⟩
  · rw [call, count_lock_leave, hbody.lock k, count_lock_enter, Nat.add_sub_cancel]
  · rw [call, held_leave] at hk
    simpa using hbody.held k hk

/-! ## The loop

Between the calls nobody but the tokens owns a handler. -/

/-- The loop of `broadcast` is not in a call. -/
def Unlocked (t : Tokens) : Prop := ∀ k, (t.holders k).owners.count .lock = 0

theorem Unlocked.of_later (h : Unlocked t) (hlater : Later t t') : Unlocked t' :=
  fun k ↦ (hlater.lock k).trans (h k)

theorem Unlocked.alive_eq (h : Unlocked t) : t.alive n = t.held n := by
  have hlock := List.count_eq_zero.mp (h n)
  rw [Bool.eq_iff_iff, held_iff, alive, Bool.not_eq_true', ← Bool.not_eq_true,
    SharedPtr.expired_iff, not_forall_not]
  refine ⟨fun ⟨o, ho⟩ ↦ ?_, fun h ↦ ⟨_, h⟩⟩
  cases o with
  | token => exact ho
  | lock => exact absurd ho hlock

/-- The loop of `broadcast` over some targets. -/
def loop (body : ℕ → List TokenOp) (args : ε) (targets : List ℕ) (t : Tokens) : Tokens :=
  Broadcaster.callTargets alive (fun n args t ↦ t.call body n args) args targets t

@[simp] theorem loop_nil : loop body args [] t = t := rfl

theorem loop_cons (h : Unlocked t) (targets : List ℕ) :
    loop body args (n :: targets) t =
      loop body args targets (if t.held n then t.call body n args else t) := by
  rw [← h.alive_eq]
  rfl

theorem loop_concat (targets : List ℕ) :
    loop body args (targets ++ [n]) t =
      if (loop body args targets t).alive n then (loop body args targets t).call body n args
      else loop body args targets t :=
  List.foldl_append

theorem later_loop (body : ℕ → List TokenOp) (args : ε) (targets : List ℕ) (t : Tokens) :
    Later t (loop body args targets t) := by
  induction targets using List.reverseRecOn with
  | nil => exact Later.refl t
  | append_singleton targets n ih =>
    rw [loop_concat]
    split
    · exact ih.trans later_call
    · exact ih

/-- A loop need not come to handlers whose token is gone. -/
theorem loop_eq_of_sublist {targets all : List ℕ} (hsub : targets.Sublist all) (hnodup : all.Nodup)
    (h : Unlocked t) (hheld : ∀ n ∈ all, t.held n = true → n ∈ targets) :
    loop body args targets t = loop body args all t := by
  induction hsub generalizing t with
  | slnil => rfl
  | @cons targets all n hsub ih =>
    rw [List.nodup_cons] at hnodup
    have hgone : t.held n ≠ true := fun hn ↦
      hnodup.1 (hsub.subset (hheld n List.mem_cons_self hn))
    rw [loop_cons h, if_neg hgone]
    exact ih hnodup.2 h fun k hk ↦ hheld k (List.mem_cons_of_mem n hk)
  | @cons_cons targets all n hsub ih =>
    rw [List.nodup_cons] at hnodup
    rw [loop_cons h, loop_cons h]
    have hlater : Later t (if t.held n then t.call body n args else t) := by
      split
      · exact later_call
      · exact Later.refl t
    refine ih hnodup.2 (h.of_later hlater) fun k hk hkheld ↦ ?_
    have hmem := hheld k (List.mem_cons_of_mem n hk) (hlater.held k hkheld)
    exact (List.mem_cons.mp hmem).resolve_left fun heq ↦ hnodup.1 (heq ▸ hk)

/-- The calls of a loop over the first `r` registrations: each handler whose token is alive when its
turn comes, once, in order. -/
theorem calls_loop_range (h : Unlocked t) (body : ℕ → List TokenOp) (args : ε) (r : ℕ) :
    ∃ new, (loop body args (List.range r) t).calls = t.calls ++ new ∧
      new.Sublist (List.range r) ∧
      ∀ n < r, n ∈ new ↔ (loop body args (List.range n) t).held n = true := by
  induction r with
  | zero => exact ⟨[], by simp, by simp, fun n hn ↦ absurd hn (Nat.not_lt_zero n)⟩
  | succ r ih =>
    obtain ⟨new, hcalls, hsub, hmem⟩ := ih
    have hr : r ∉ new := fun hr ↦ by simpa using hsub.subset hr
    have hunlocked := h.of_later (later_loop body args (List.range r) t)
    rw [List.range_succ, loop_concat, hunlocked.alive_eq]
    by_cases hheld : (loop body args (List.range r) t).held r = true
    · rw [if_pos hheld]
      refine ⟨new ++ [r], by rw [calls_call, hcalls, List.append_assoc],
        hsub.append (List.Sublist.refl _), fun n hn ↦ ?_⟩
      rcases Nat.lt_succ_iff_lt_or_eq.mp hn with hlt | rfl
      · simpa [Nat.ne_of_lt hlt] using hmem n hlt
      · simpa using hheld
    · rw [if_neg hheld]
      refine ⟨new, hcalls, hsub.trans (List.sublist_append_left _ _), fun n hn ↦ ?_⟩
      rcases Nat.lt_succ_iff_lt_or_eq.mp hn with hlt | rfl
      · exact hmem n hlt
      · exact iff_of_false hr hheld

end Tokens

/-! ## Histories -/

/-- A service manager, and the pointers to its handlers. -/
structure HandlersState where
  manager : EpicsServiceManager
  tokens : Tokens

/-- What happens to the handlers. -/
inductive HandlersAction
  | addHandler
  | token (op : TokenOp)
  | purge
  | broadcast (body : ℕ → List TokenOp) (receivedEvent : List MonitorEvent)
  | processIterator (body : ℕ → List TokenOp) (name : String) (epicsChannel : EpicsChannel)
  | getHandlerSize

/-- The action is a registration. -/
def HandlersAction.isAddHandler : HandlersAction → Bool
  | .addHandler => true
  | _ => false

namespace HandlersState

open Tokens

/-- A manager without handlers. -/
def start : HandlersState where
  manager := .empty
  tokens := Tokens.none

/-- `addHandler`, and the token that it returns. -/
def addHandler (s : HandlersState) : HandlersState where
  manager := s.manager.addHandler.1
  tokens := s.tokens.update s.manager.addHandler.2 (SharedPtr.null.copy .token)

/-- `handler_broadcaster.purge()`. -/
def purge (s : HandlersState) : HandlersState :=
  { s with
    manager := { s.manager with
      handlerBroadcaster := s.manager.handlerBroadcaster.purge s.tokens.alive } }

/-- `handler_broadcaster.broadcast(received_event)`. -/
def broadcast (body : ℕ → List TokenOp) (receivedEvent : List MonitorEvent) (s : HandlersState) :
    HandlersState :=
  let r := s.manager.handlerBroadcaster.broadcast alive (fun n args t ↦ t.call body n args)
    receivedEvent s.tokens
  { manager := { s.manager with handlerBroadcaster := r.1 }, tokens := r.2 }

/-- `EpicsServiceManager::processIterator`. -/
def processIterator (body : ℕ → List TokenOp) (name : String) (epicsChannel : EpicsChannel)
    (s : HandlersState) : HandlersState :=
  let r := EpicsServiceManager.processIterator alive (fun n args t ↦ t.call body n args) name
    epicsChannel (s.manager, s.tokens)
  { manager := r.1, tokens := r.2 }

/-- One action. -/
def exec (s : HandlersState) : HandlersAction → HandlersState
  | .addHandler => s.addHandler
  | .token op => { s with tokens := s.tokens.exec op }
  | .purge => s.purge
  | .broadcast body receivedEvent => s.broadcast body receivedEvent
  | .processIterator body name epicsChannel => s.processIterator body name epicsChannel
  | .getHandlerSize => { s with manager := (s.manager.getHandlerSize s.tokens.alive).1 }

/-- The state after some actions. -/
def after (actions : List HandlersAction) : HandlersState := actions.foldl exec start

end HandlersState

namespace Tokens

variable {t t' : Tokens} {b : Broadcaster} {body : ℕ → List TokenOp}

/-- Between the actions: the targets are registrations, in their order, and every handler that has a
token is among them. -/
structure HandlersInv (b : Broadcaster) (t : Tokens) : Prop where
  sublist : b.targets.Sublist (List.range b.registered)
  listed : ∀ n, t.held n = true → n ∈ b.targets
  unlocked : t.Unlocked

theorem handlersInv_start : HandlersInv {} Tokens.none :=
  ⟨List.Sublist.refl _, fun n hn ↦ by simp [held, Tokens.none, SharedPtr.null] at hn, fun n ↦ rfl⟩

theorem HandlersInv.of_later (h : HandlersInv b t) (hlater : Later t t') : HandlersInv b t' :=
  ⟨h.sublist, fun n hn ↦ h.listed n (hlater.held n hn), h.unlocked.of_later hlater⟩

theorem HandlersInv.purge (h : HandlersInv b t) : HandlersInv (b.purge t.alive) t := by
  refine ⟨List.filter_sublist.trans h.sublist, fun n hn ↦ ?_, h.unlocked⟩
  exact List.mem_filter.mpr ⟨h.listed n hn, h.unlocked.alive_eq.trans hn⟩

theorem HandlersInv.registerHandler (h : HandlersInv b t) :
    HandlersInv b.registerHandler.1
      (t.update b.registerHandler.2 (SharedPtr.null.copy .token)) := by
  refine ⟨?_, fun n hn ↦ ?_, fun n ↦ ?_⟩
  · rw [Broadcaster.registerHandler, List.range_succ]
    exact h.sublist.append (List.Sublist.refl _)
  · by_cases hnew : n = b.registered
    · exact List.mem_append_right _ (List.mem_singleton.mpr hnew)
    · rw [held_iff, Broadcaster.registerHandler, holders_update_of_ne hnew, ← held_iff] at hn
      exact List.mem_append_left _ (h.listed n hn)
  · by_cases hnew : n = b.registered
    · simp [Broadcaster.registerHandler, hnew, SharedPtr.copy, SharedPtr.null]
    · rw [Broadcaster.registerHandler, holders_update_of_ne hnew]
      exact h.unlocked n

/-- The targets of a broadcast are as good as all the registrations. -/
theorem HandlersInv.broadcast_snd {ε : Type u} {args : ε} (h : HandlersInv b t) :
    (b.broadcast alive (fun n args t ↦ t.call body n args) args t).2 =
      loop body args (List.range b.registered) t :=
  loop_eq_of_sublist h.purge.sublist List.nodup_range h.unlocked
    fun n _ hn ↦ h.purge.listed n hn

theorem HandlersInv.broadcast {ε : Type u} {args : ε} (h : HandlersInv b t) :
    HandlersInv (b.purge t.alive)
      (b.broadcast alive (fun n args t ↦ t.call body n args) args t).2 := by
  rw [h.broadcast_snd]
  exact h.purge.of_later (later_loop body args _ t)

/-- Of the targets and of all the registrations the same ones have a token. -/
theorem HandlersInv.filter_held (h : HandlersInv b t) :
    b.targets.filter t.held = (List.range b.registered).filter t.held := by
  have hsub : (List.range b.registered).filter t.held ⊆ b.targets.filter t.held := by
    intro n hn
    have hheld := (List.mem_filter.mp hn).2
    exact List.mem_filter.mpr ⟨h.listed n hheld, hheld⟩
  have hnodup : ((List.range b.registered).filter t.held).Nodup := List.nodup_range.filter _
  exact (h.sublist.filter t.held).eq_of_length_le (hnodup.subperm hsub).length_le

/-- What holds after so many registrations.  Every token that is alive is that of a registration,
and the next registration returns a token of its own.  A broadcast calls each handler whose token is
alive when its turn comes, once, in the order of the registrations; `purge` erases the targets whose
token is not alive and keeps the order of the others; and `getHandlerSize` counts the registrations
whose token is alive. -/
structure HandlersLaw (registrations : ℕ) (s : HandlersState) : Prop where
  registered : s.manager.handlerBroadcaster.registered = registrations
  held : ∀ n, s.tokens.held n = true → n < registrations
  addHandler : s.addHandler.tokens.held registrations = true ∧
    ∀ n, n ≠ registrations → s.addHandler.tokens.held n = s.tokens.held n
  broadcast : ∀ body receivedEvent, ∃ new,
    (s.broadcast body receivedEvent).tokens.calls = s.tokens.calls ++ new ∧
      new.Sublist (List.range registrations) ∧
      ∀ n < registrations,
        n ∈ new ↔ (loop body receivedEvent (List.range n) s.tokens).held n = true
  purge : s.purge.manager.handlerBroadcaster.targets =
    s.manager.handlerBroadcaster.targets.filter s.tokens.held
  getHandlerSize : (s.manager.getHandlerSize s.tokens.alive).2 =
    (List.range registrations).countP s.tokens.held

end Tokens

namespace HandlersState

open Tokens

variable {s : HandlersState}

/-- The invariant, of a whole state. -/
def Inv (s : HandlersState) : Prop := HandlersInv s.manager.handlerBroadcaster s.tokens

theorem Inv.of_exec (h : s.Inv) (action : HandlersAction) : (s.exec action).Inv := by
  cases action with
  | addHandler => exact h.registerHandler
  | token op => exact HandlersInv.of_later h (later_exec s.tokens op)
  | purge => exact HandlersInv.purge h
  | broadcast body receivedEvent => exact HandlersInv.broadcast h
  | processIterator body name epicsChannel =>
    simp only [exec, processIterator, EpicsServiceManager.processIterator]
    split
    · exact h
    · exact HandlersInv.broadcast h
  | getHandlerSize => exact HandlersInv.purge h

theorem inv_after (actions : List HandlersAction) : (after actions).Inv := by
  induction actions using List.reverseRecOn with
  | nil => exact handlersInv_start
  | append_singleton actions action ih =>
    rw [after, List.foldl_append]
    exact ih.of_exec action

/-- A registration is counted once, and nothing else is. -/
theorem registered_exec (s : HandlersState) (action : HandlersAction) :
    (s.exec action).manager.handlerBroadcaster.registered =
      s.manager.handlerBroadcaster.registered + if action.isAddHandler then 1 else 0 := by
  cases action with
  | processIterator body name epicsChannel =>
    simp only [exec, processIterator, EpicsServiceManager.processIterator]
    split <;> rfl
  | _ => rfl

theorem registered_after (actions : List HandlersAction) :
    (after actions).manager.handlerBroadcaster.registered =
      actions.countP HandlersAction.isAddHandler := by
  induction actions using List.reverseRecOn with
  | nil => rfl
  | append_singleton actions action ih =>
    rw [after, List.foldl_append] at *
    rw [List.foldl_cons, List.foldl_nil, registered_exec, ih, List.countP_append,
      List.countP_singleton]

/-- The token of a new registration, and the other ones. -/
theorem held_addHandler (s : HandlersState) (n : ℕ) :
    s.addHandler.tokens.held n =
      if n = s.manager.handlerBroadcaster.registered then true else s.tokens.held n := by
  have htoken : s.manager.addHandler.2 = s.manager.handlerBroadcaster.registered := rfl
  rw [addHandler, htoken]
  split
  · rename_i hnew
    subst hnew
    simp [held, SharedPtr.copy, SharedPtr.null]
  · rename_i hnew
    rw [held, holders_update_of_ne hnew, held]

/-- **Handlers are called exactly while their token lives**, whatever was registered, copied,
dropped, purged and broadcast before. -/
theorem handlersLaw_after (actions : List HandlersAction) :
    HandlersLaw (actions.countP HandlersAction.isAddHandler) (after actions) := by
  have h := inv_after actions
  rw [← registered_after actions]
  refine ⟨rfl, fun n hn ↦ ?_, ⟨?_, fun n hn ↦ ?_⟩, fun body receivedEvent ↦ ?_, ?_, ?_⟩
  · exact List.mem_range.mp (h.sublist.subset (h.listed n hn))
  · rw [held_addHandler, if_pos rfl]
  · rw [held_addHandler, if_neg hn]
  · obtain ⟨new, hcalls, hnew⟩ := calls_loop_range h.unlocked body receivedEvent
      (after actions).manager.handlerBroadcaster.registered
    refine ⟨new, ?_, hnew⟩
    rw [← hcalls, ← HandlersInv.broadcast_snd h]
    rfl
  · refine List.filter_congr fun n _ ↦ ?_
    exact h.unlocked.alive_eq
  · rw [List.countP_eq_length_filter, ← HandlersInv.filter_held h]
    refine congrArg List.length (List.filter_congr fun n _ ↦ ?_)
    exact h.unlocked.alive_eq

/-- The first handler drops its own token and the one of the second handler, which is not called. -/
example : (after [.addHandler, .addHandler,
    .broadcast (fun n ↦ if n = 0 then [.drop 0, .drop 1] else []) []]).tokens.calls = [0] := by
  decide

/-- The scheduler broadcasts when a channel has something to report. -/
theorem tokens_processIterator (body : ℕ → List TokenOp) (name : String)
    (epicsChannel : EpicsChannel) :
    (s.processIterator body name epicsChannel).tokens =
      if epicsChannel.monitor.1.length = 0 then s.tokens
      else (s.broadcast body epicsChannel.monitor.1).tokens := by
  have hmonitored : (s.manager.monitored name).handlerBroadcaster =
      s.manager.handlerBroadcaster := rfl
  simp only [processIterator, EpicsServiceManager.processIterator, hmonitored]
  by_cases hevents : epicsChannel.monitor.1.length = 0
  · rw [if_pos hevents, if_pos (Or.inl hevents)]
  · rw [if_neg hevents]
    split
    · rename_i htargets
      -- nobody to broadcast to
      have hnil := List.eq_nil_of_length_eq_zero (htargets.resolve_left hevents)
      simp [broadcast, Broadcaster.broadcast, Broadcaster.purge, Broadcaster.callTargets, hnil]
    · rfl

end HandlersState

end Ekg
