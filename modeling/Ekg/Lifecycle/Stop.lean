import Ekg.Lib.Mutex
import Ekg.Lib.Steps

/-!
# Requests to stop

`EKGateway::setup` takes the mutex `m` at its very start and keeps it until it returns, but for the
wait for `quit` in the middle.  `stop` takes `m` to set `quit` and to notify.  A thread of its own
that calls `stop` has to wait for a while at most.  The signal handler of `main` calls `stop` too,
and it runs on whatever thread it interrupts, on top of what this thread is doing.

The thread of `setup` is given here by a point of `setup` and a stack of handlers, of which only the
topmost one runs, and the other requests by one point of `stop` each.  `neverHangs_iff` is the
result: no wakeup is ever lost, and a run is free of handlers that wait for their own thread exactly
if every signal comes while this thread does not hold `m`.
-/

set_option autoImplicit false

namespace Ekg

open Steps

/-! ## The body of `setup` -/

/-- The statements of `EKGateway::setup` on both sides of the wait. -/
inductive SetupStep
  | parse
  /-- The option `help` makes `setup` return. -/
  | helpOption
  | registerLogger | registerEpicsServiceManager | registerPublisher | registerSubscriber
  | createNodeController | createCmdController
  | resetCmdController | resetNodeController
  | resetSubscriber | resetPublisher | resetEpicsServiceManager | resetLogger
  | setTerminated
  deriving DecidableEq, Repr

/-- What comes before the wait. -/
def SetupStep.startUp : List SetupStep :=
  [parse, helpOption, registerLogger, registerEpicsServiceManager, registerPublisher,
    registerSubscriber, createNodeController, createCmdController]

/-- What comes after the wait. -/
def SetupStep.tearDown : List SetupStep :=
  [resetCmdController, resetNodeController, resetSubscriber, resetPublisher,
    resetEpicsServiceManager, resetLogger, setTerminated]

/-- How a statement of `setup` ends. -/
inductive Outcome
  | done
  /-- It throws, and `setup` returns by way of a `catch`. -/
  | throws
  /-- The help text is printed, and `setup` returns. -/
  | helpPrinted
  deriving DecidableEq, Repr

/-- How far `setup` is. -/
inductive SetupPoint
  /-- Before the lock of `m`. -/
  | entering
  | startingUp (rest : List SetupStep)
  /-- Before a look at `quit`. -/
  | checking
  /-- `quit` was false: before the unlock of `m`. -/
  | releasing
  /-- In `cv.wait`, without `m`. -/
  | blocked (notified : Bool)
  /-- In `cv.wait`, before the lock of `m`. -/
  | relocking
  | tearingDown (rest : List SetupStep)
  | returned
  deriving DecidableEq, Repr

/-- At this point `setup` holds `m`. -/
def SetupPoint.holds : SetupPoint → Bool
  | .startingUp _ => true
  | .checking => true
  | .releasing => true
  | .tearingDown _ => true
  | _ => false

/-- How far a call of `stop` is. -/
inductive StopPoint
  /-- Before the lock of `m`. -/
  | locking
  /-- Before `quit = true`. -/
  | setting
  /-- Before `notify_one`. -/
  | notifying
  /-- Before the unlock of `m`. -/
  | unlocking
  | returned
  deriving DecidableEq, Repr

/-- At this point the call holds `m`. -/
def StopPoint.holds : StopPoint → Bool
  | .setting => true
  | .notifying => true
  | .unlocking => true
  | _ => false

/-- A thread that may hold `m`. -/
inductive StopThread
  /-- The thread of `setup`, with its signal handlers. -/
  | main
  /-- A thread of its own that calls `stop`. -/
  | request (i : ℕ)
  deriving DecidableEq, Repr

/-! ## The threads -/

/-- The gateway, as far as its stop goes. -/
structure StopState where
  quit : Bool
  /-- The thread that holds `m`. -/
  owner : Option StopThread
  setup : SetupPoint
  /-- The signal handlers on top of `setup`, the topmost first. -/
  handlers : List StopPoint
  /-- The other calls of `stop`. -/
  requests : List StopPoint
  deriving DecidableEq, Repr

/-- Something happens. -/
inductive StopStep
  /-- `setup` goes on. -/
  | setup (outcome : Outcome)
  /-- A signal interrupts the thread of `setup`. -/
  | signal
  /-- The topmost handler goes on. -/
  | handler
  /-- Another thread calls `stop`. -/
  | request
  /-- Request `i` goes on. -/
  | advance (i : ℕ)
  deriving DecidableEq, Repr

namespace StopState

/-- Before `setup`. -/
def start : StopState where
  quit := false
  owner := none
  setup := .entering
  handlers := []
  requests := []

/-- The next step of `setup`, if it does not have to wait. -/
def advanceSetup (outcome : Outcome) (s : StopState) : Option StopState :=
  let leave := { s with setup := .returned, owner := none }
  match s.setup with
  | .entering =>
    if s.owner = none then
      some { s with setup := .startingUp SetupStep.startUp, owner := some .main }
    else none
  | .startingUp [] => some { s with setup := .checking }
  | .startingUp (statement :: rest) =>
    match outcome with
    | .done => some { s with setup := .startingUp rest }
    | .throws => some leave
    | .helpPrinted => if statement = .helpOption then some leave else none
  | .checking =>
    some { s with setup := if s.quit then .tearingDown SetupStep.tearDown else .releasing }
  | .releasing => some { s with setup := .blocked false, owner := none }
  -- with or without a notification
  | .blocked _ => some { s with setup := .relocking }
  | .relocking =>
    if s.owner = none then some { s with setup := .checking, owner := some .main } else none
  | .tearingDown [] => some leave
  | .tearingDown (_ :: rest) =>
    match outcome with
    | .done => some { s with setup := .tearingDown rest }
    | .throws => some leave
    | .helpPrinted => none
  | .returned => none

/-- `notify_one`: it is lost, unless `setup` is blocked. -/
def notifyOne (s : StopState) : StopState :=
  { s with setup := match s.setup with
      | .blocked _ => .blocked true
      | point => point }

/-- The next step of a call of `stop` by the thread `t`, if it does not have to wait. -/
def advanceStop (t : StopThread) (s : StopState) : StopPoint → Option (StopPoint × StopState)
  | .locking => if s.owner = none then some (.setting, { s with owner := some t }) else none
  | .setting => some (.notifying, { s with quit := true })
  | .notifying => some (.unlocking, s.notifyOne)
  | .unlocking => some (.returned, { s with owner := none })
  | .returned => none

/-- One step. -/
def step (s : StopState) : StopStep → Option StopState
  | .setup outcome => if s.handlers = [] then advanceSetup outcome s else none
  | .signal => some { s with handlers := .locking :: s.handlers }
  | .handler =>
    match s.handlers with
    | [] => none
    | .returned :: handlers => some { s with handlers }
    | point :: handlers => (advanceStop .main s point).map fun r ↦
      { r.2 with handlers := r.1 :: handlers }
  | .request => some { s with requests := s.requests ++ [.locking] }
  | .advance i => (s.requests[i]?).bind fun point ↦ (advanceStop (.request i) s point).map fun r ↦
      { r.2 with requests := s.requests.set i r.1 }

/-- The running handler waits for `m`, and the thread that it has interrupted holds `m`. -/
def WaitsForItself (s : StopState) : Prop :=
  s.handlers.head? = some .locking ∧ s.owner = some .main

/-- A notification has reached `setup`, or a call of `stop` is about to send one. -/
def NotificationPending (s : StopState) : Prop :=
  s.setup = .blocked true ∨ .notifying ∈ s.handlers ∨ .notifying ∈ s.requests

/-- `setup` is blocked for good. -/
def LostWakeup (s : StopState) : Prop :=
  s.quit = true ∧ (∃ notified, s.setup = .blocked notified) ∧ ¬ s.NotificationPending

/-- In the schedule, every signal comes while the thread of `setup` does not hold `m`. -/
def SignalsOutside (sched : List StopStep) : Prop :=
  ∀ done rest ρ, sched = done ++ .signal :: rest → run step start done = some ρ →
    ρ.owner ≠ some .main

/-! ## Who holds `m` -/

/-- How often the thread of `setup` is at a point where it holds `m`. -/
def mainHolds (s : StopState) : ℕ := s.setup.holds.toNat + s.handlers.countP StopPoint.holds

/-- The thread is at a point where it holds `m`. -/
def Holds (s : StopState) : StopThread → Prop
  | .main => 0 < s.mainHolds
  | .request i => (s.requests[i]?).any StopPoint.holds = true

/-- The owner of `m` is the thread that is at a point where it holds `m`, and it is at one only. -/
structure Locked (s : StopState) : Prop where
  owner : Mutex.OwnedBy s.owner s.Holds
  mainHolds_le : s.mainHolds ≤ 1

variable {s t : StopState} {a : StopStep} {sched : List StopStep} {thread : StopThread}
  {point point' : StopPoint} {outcome : Outcome} {i : ℕ}

theorem countP_holds_cons (point : StopPoint) (handlers : List StopPoint) :
    (point :: handlers).countP StopPoint.holds =
      handlers.countP StopPoint.holds + point.holds.toNat := by
  rw [List.countP_cons]
  cases point.holds <;> rfl

theorem locked_start : Locked start := by
  refine ⟨Mutex.ownedBy_none_iff.mpr fun u ↦ ?_, by decide⟩
  rcases u with _ | i
  · exact Nat.lt_irrefl 0
  · simp [Holds, start]

/-- The thread of `setup` leaves `m` alone, locks it or unlocks it. -/
theorem Locked.of_main (hs : s.Locked) (hrequests : t.requests = s.requests)
    (h : (t.owner = s.owner ∧ t.mainHolds = s.mainHolds) ∨
      (s.owner = none ∧ t.owner = some .main ∧ t.mainHolds = s.mainHolds + 1) ∨
      (t.owner = none ∧ t.mainHolds + 1 = s.mainHolds)) : t.Locked := by
  have hle := hs.mainHolds_le
  have hmain := hs.owner .main
  refine ⟨hs.owner.of_step (t := .main) (fun u hu ↦ ?_) ?_, ?_⟩
  · rcases u with _ | i
    · exact absurd rfl hu
    · rw [Holds, Holds, hrequests]
  · simp only [Holds]
    rcases h with ⟨howner, hholds⟩ | ⟨hfree, howner, hholds⟩ | ⟨howner, hholds⟩
    · exact Or.inl ⟨howner, by rw [hholds]⟩
    · exact Or.inr (Or.inl ⟨hfree, howner, by omega⟩)
    · exact Or.inr (Or.inr ⟨by omega, howner, by omega⟩)
  · rcases h with ⟨-, hholds⟩ | ⟨hfree, -, hholds⟩ | ⟨-, hholds⟩
    · omega
    · have hnot : ¬ 0 < s.mainHolds := fun hpos ↦ by
        rw [hmain.mpr hpos] at hfree
        cases hfree
      omega
    · omega

/-- One point of the thread of `setup` changes from `before` to `after`, and the others stay. -/
theorem Locked.of_point (hs : s.Locked) (hrequests : t.requests = s.requests) {n : ℕ}
    {before after : Bool} (hbefore : s.mainHolds = n + before.toNat)
    (hafter : t.mainHolds = n + after.toNat)
    (h : (t.owner = s.owner ∧ after = before) ∨
      (s.owner = none ∧ t.owner = some .main ∧ before = false ∧ after = true) ∨
      (t.owner = none ∧ before = true ∧ after = false)) : t.Locked := by
  refine hs.of_main hrequests ?_
  rw [hbefore, hafter]
  rcases h with ⟨howner, rfl⟩ | ⟨hfree, howner, rfl, rfl⟩ | ⟨howner, rfl, rfl⟩
  · exact Or.inl ⟨howner, rfl⟩
  · exact Or.inr (Or.inl ⟨hfree, howner, rfl⟩)
  · exact Or.inr (Or.inr ⟨howner, rfl⟩)

/-- What a step of `setup` does to `m`, and how it comes to the wait. -/
theorem advanceSetup_spec (h : advanceSetup outcome s = some t) :
    t.handlers = s.handlers ∧ t.requests = s.requests ∧ t.quit = s.quit ∧
      (t.setup = .releasing → s.quit = false) ∧
      (t.setup = .blocked false → s.setup = .releasing) ∧
      ((t.owner = s.owner ∧ t.setup.holds = s.setup.holds) ∨
        (s.owner = none ∧ t.owner = some .main ∧ s.setup.holds = false ∧ t.setup.holds = true) ∨
        (t.owner = none ∧ s.setup.holds = true ∧ t.setup.holds = false)) := by
  rcases s with ⟨quit, owner, setup, handlers, requests⟩
  rcases setup with _ | rest | _ | _ | notified | _ | rest | _
  case entering | relocking =>
    obtain ⟨hfree, heq⟩ := Option.ite_none_right_eq_some.mp h
    cases heq
    exact ⟨rfl, rfl, rfl, nofun, nofun, Or.inr (Or.inl ⟨hfree, rfl, rfl, rfl⟩)⟩
  case startingUp =>
    rcases rest with _ | ⟨statement, rest⟩
    · cases h
      exact ⟨rfl, rfl, rfl, nofun, nofun, Or.inl ⟨rfl, rfl⟩⟩
    · rcases outcome with _ | _ | _
      · cases h
        exact ⟨rfl, rfl, rfl, nofun, nofun, Or.inl ⟨rfl, rfl⟩⟩
      · cases h
        exact ⟨rfl, rfl, rfl, nofun, nofun, Or.inr (Or.inr ⟨rfl, rfl, rfl⟩)⟩
      · obtain ⟨-, heq⟩ := Option.ite_none_right_eq_some.mp h
        cases heq
        exact ⟨rfl, rfl, rfl, nofun, nofun, Or.inr (Or.inr ⟨rfl, rfl, rfl⟩)⟩
  case tearingDown =>
    rcases rest with _ | ⟨statement, rest⟩
    · cases h
      exact ⟨rfl, rfl, rfl, nofun, nofun, Or.inr (Or.inr ⟨rfl, rfl, rfl⟩)⟩
    · rcases outcome with _ | _ | _
      · cases h
        exact ⟨rfl, rfl, rfl, nofun, nofun, Or.inl ⟨rfl, rfl⟩⟩
      · cases h
        exact ⟨rfl, rfl, rfl, nofun, nofun, Or.inr (Or.inr ⟨rfl, rfl, rfl⟩)⟩
      · cases h
  case checking =>
    cases h
    refine ⟨rfl, rfl, rfl, ?_, ?_, Or.inl ⟨rfl, ?_⟩⟩ <;> cases quit <;> simp [SetupPoint.holds]
  case releasing =>
    cases h
    exact ⟨rfl, rfl, rfl, nofun, fun _ ↦ rfl, Or.inr (Or.inr ⟨rfl, rfl, rfl⟩)⟩
  case blocked =>
    cases h
    exact ⟨rfl, rfl, rfl, nofun, nofun, Or.inl ⟨rfl, rfl⟩⟩
  case returned => cases h

/-- What a step of `stop` does to `m`, and to everything else. -/
theorem holds_advanceStop (h : advanceStop thread s point = some (point', t)) :
    t.handlers = s.handlers ∧ t.requests = s.requests ∧ t.setup.holds = s.setup.holds ∧
      ((t.owner = s.owner ∧ point'.holds = point.holds) ∨
        (s.owner = none ∧ t.owner = some thread ∧ point.holds = false ∧ point'.holds = true) ∨
        (t.owner = none ∧ point.holds = true ∧ point'.holds = false)) := by
  rcases point with _ | _ | _ | _ | _
  case locking =>
    obtain ⟨hfree, heq⟩ := Option.ite_none_right_eq_some.mp h
    cases heq
    exact ⟨rfl, rfl, rfl, Or.inr (Or.inl ⟨hfree, rfl, rfl, rfl⟩)⟩
  case setting =>
    cases h
    exact ⟨rfl, rfl, rfl, Or.inl ⟨rfl, rfl⟩⟩
  case notifying =>
    cases h
    refine ⟨rfl, rfl, ?_, Or.inl ⟨rfl, rfl⟩⟩
    rw [notifyOne]
    cases s.setup <;> rfl
  case unlocking =>
    cases h
    exact ⟨rfl, rfl, rfl, Or.inr (Or.inr ⟨rfl, rfl, rfl⟩)⟩
  case returned => cases h

theorem Locked.of_step (hs : s.Locked) (h : step s a = some t) : t.Locked := by
  rcases a with outcome | _ | _ | _ | i
  case setup =>
    obtain ⟨hnil, hadv⟩ := Option.ite_none_right_eq_some.mp h
    obtain ⟨hhandlers, hrequests, -, -, -, hlock⟩ := advanceSetup_spec hadv
    refine hs.of_point hrequests (Nat.add_comm _ _) ?_ hlock
    rw [mainHolds, hhandlers, Nat.add_comm]
  case signal =>
    cases h
    exact hs.of_main rfl (Or.inl ⟨rfl, by simp [mainHolds, StopPoint.holds]⟩)
  case handler =>
    rw [step] at h
    split at h
    · cases h
    · rename_i handlers hhandlers
      cases h
      refine hs.of_main rfl (Or.inl ⟨rfl, ?_⟩)
      simp [mainHolds, hhandlers, StopPoint.holds]
    · rename_i point handlers hnot hhandlers
      obtain ⟨⟨point', s'⟩, hadv, rfl⟩ := Option.map_eq_some_iff.mp h
      obtain ⟨-, hrequests, hsetup, hlock⟩ := holds_advanceStop hadv
      refine hs.of_point hrequests (n := s.setup.holds.toNat + handlers.countP StopPoint.holds)
        ?_ ?_ hlock
      · rw [mainHolds, hhandlers, countP_holds_cons, Nat.add_assoc]
      · rw [mainHolds, hsetup, countP_holds_cons, Nat.add_assoc]
  case request =>
    cases h
    refine ⟨fun u ↦ (hs.owner u).trans ?_, hs.mainHolds_le⟩
    rcases u with _ | i
    · rfl
    · simp only [Holds]
      rcases Nat.lt_trichotomy i s.requests.length with hlt | rfl | hgt
      · rw [List.getElem?_append_left hlt]
      · simp [StopPoint.holds]
      · rw [List.getElem?_eq_none hgt.le,
          List.getElem?_eq_none (by simpa using Nat.succ_le_of_lt hgt)]
  case advance =>
    obtain ⟨point, hpoint, hmap⟩ := Option.bind_eq_some_iff.mp h
    obtain ⟨⟨point', s'⟩, hadv, rfl⟩ := Option.map_eq_some_iff.mp hmap
    obtain ⟨hhandlers, -, hsetup, hlock⟩ := holds_advanceStop hadv
    have hmain : mainHolds { s' with requests := s.requests.set i point' } = s.mainHolds := by
      simp only [mainHolds, hhandlers, hsetup]
    refine ⟨hs.owner.of_step (t := .request i) (fun u hu ↦ ?_) ?_, hmain ▸ hs.mainHolds_le⟩
    · rcases u with _ | j
      · simp only [Holds, hmain]
      · have hne : i ≠ j := fun hij ↦ hu (hij ▸ rfl)
        simp only [Holds, List.getElem?_set_ne hne]
    · simp only [Holds, hpoint, List.getElem?_set_self (List.getElem?_eq_some_iff.mp hpoint).1,
        Option.any_some]
      rcases hlock with ⟨howner, hholds⟩ | ⟨hfree, howner, -, hafter⟩ | ⟨howner, hbefore, hafter⟩
      · exact Or.inl ⟨howner, by rw [hholds]⟩
      · exact Or.inr (Or.inl ⟨hfree, howner, hafter⟩)
      · exact Or.inr (Or.inr ⟨hbefore, howner, by rw [hafter]; exact Bool.false_ne_true⟩)

/-! ## No wakeup is lost -/

/-- What keeps a wakeup from getting lost: between its look at `quit` and the wait, `setup` holds
`m`, and whoever sets `quit` notifies afterwards. -/
structure Wakes (s : StopState) : Prop where
  releasing : s.setup = .releasing → s.quit = false
  blocked : s.quit = true → s.setup = .blocked false → .notifying ∈ s.handlers ++ s.requests

/-- A call of `stop` next to other calls, of which some may be about to notify. -/
theorem wakes_advanceStop {others : Prop} (h : advanceStop thread s point = some (point', t))
    (hreleasing : s.setup = .releasing → s.quit = false ∧ point.holds = false)
    (hblocked : s.quit = true → s.setup = .blocked false → point = .notifying ∨ others) :
    (t.setup = .releasing → t.quit = false) ∧
      (t.quit = true → t.setup = .blocked false → point' = .notifying ∨ others) := by
  rcases point with _ | _ | _ | _ | _
  case locking =>
    obtain ⟨-, heq⟩ := Option.ite_none_right_eq_some.mp h
    cases heq
    exact ⟨fun hs ↦ (hreleasing hs).1,
      fun hquit hs ↦ Or.inr ((hblocked hquit hs).resolve_left nofun)⟩
  case setting =>
    cases h
    exact ⟨fun hs ↦ absurd (hreleasing hs).2 nofun, fun _ _ ↦ Or.inl rfl⟩
  case notifying =>
    cases h
    refine ⟨fun hs ↦ (hreleasing ?_).1, fun _ hs ↦ ?_⟩
    · revert hs
      rw [notifyOne]
      cases s.setup <;> simp
    · revert hs
      rw [notifyOne]
      cases s.setup <;> simp
  case unlocking =>
    cases h
    exact ⟨fun hs ↦ (hreleasing hs).1,
      fun hquit hs ↦ Or.inr ((hblocked hquit hs).resolve_left nofun)⟩
  case returned => cases h

theorem wakes_start : Wakes start := ⟨nofun, nofun⟩

theorem Wakes.of_step (hs : s.Wakes) (hlocked : s.Locked) (h : step s a = some t) : t.Wakes := by
  rcases a with outcome | _ | _ | _ | i
  case setup =>
    obtain ⟨-, hadv⟩ := Option.ite_none_right_eq_some.mp h
    obtain ⟨-, -, hquit, hreleasing, hblocked, -⟩ := advanceSetup_spec hadv
    refine ⟨fun hsetup ↦ hquit.trans (hreleasing hsetup), fun hquit' hsetup ↦ ?_⟩
    rw [hquit, hs.releasing (hblocked hsetup)] at hquit'
    cases hquit'
  case signal =>
    cases h
    exact ⟨hs.releasing, fun hquit hsetup ↦ List.mem_cons_of_mem _ (hs.blocked hquit hsetup)⟩
  case handler =>
    rw [step] at h
    split at h
    · cases h
    · rename_i handlers hhandlers
      cases h
      refine ⟨hs.releasing, fun hquit hsetup ↦ ?_⟩
      have hmem := hs.blocked hquit hsetup
      rw [hhandlers] at hmem
      exact (List.mem_cons.mp hmem).resolve_left nofun
    · rename_i point handlers hnot hhandlers
      obtain ⟨⟨point', s'⟩, hadv, rfl⟩ := Option.map_eq_some_iff.mp h
      obtain ⟨-, hrequests, -, -⟩ := holds_advanceStop hadv
      have hwakes : (s'.setup = .releasing → s'.quit = false) ∧
          (s'.quit = true → s'.setup = .blocked false →
            point' = .notifying ∨ .notifying ∈ handlers ++ s.requests) := by
        refine wakes_advanceStop hadv (fun hsetup ↦ ⟨hs.releasing hsetup, ?_⟩) fun hquit hsetup ↦ ?_
        · -- `setup` holds `m` on the same thread
          have hle := hlocked.mainHolds_le
          rw [mainHolds, hsetup, hhandlers, countP_holds_cons] at hle
          by_contra hholds
          rw [Bool.not_eq_false] at hholds
          simp only [SetupPoint.holds, hholds, Bool.toNat_true] at hle
          omega
        · have hmem := hs.blocked hquit hsetup
          rw [hhandlers] at hmem
          exact (List.mem_cons.mp hmem).imp_left Eq.symm
      refine ⟨hwakes.1, fun hquit hsetup ↦ ?_⟩
      show _ ∈ point' :: handlers ++ s'.requests
      rw [hrequests]
      exact List.mem_cons.mpr ((hwakes.2 hquit hsetup).imp_left Eq.symm)
  case request =>
    cases h
    refine ⟨hs.releasing, fun hquit hsetup ↦ ?_⟩
    rw [← List.append_assoc]
    exact List.mem_append_left _ (hs.blocked hquit hsetup)
  case advance =>
    obtain ⟨point, hpoint, hmap⟩ := Option.bind_eq_some_iff.mp h
    obtain ⟨⟨point', s'⟩, hadv, rfl⟩ := Option.map_eq_some_iff.mp hmap
    obtain ⟨hhandlers, -, -, -⟩ := holds_advanceStop hadv
    have hlt := (List.getElem?_eq_some_iff.mp hpoint).1
    have hwakes : (s'.setup = .releasing → s'.quit = false) ∧ (s'.quit = true →
        s'.setup = .blocked false → point' = .notifying ∨
          (.notifying ∈ s.handlers ∨ ∃ j, j ≠ i ∧ s.requests[j]? = some .notifying)) := by
      refine wakes_advanceStop hadv (fun hsetup ↦ ⟨hs.releasing hsetup, ?_⟩) fun hquit hsetup ↦ ?_
      · -- `setup` holds `m` on another thread
        by_contra hholds
        rw [Bool.not_eq_false] at hholds
        have hmain : s.owner = some .main := (hlocked.owner .main).mpr (by
          rw [Holds, mainHolds, hsetup]
          exact Nat.add_pos_left Nat.one_pos _)
        have hrequest : s.owner = some (.request i) := (hlocked.owner (.request i)).mpr (by
          rw [Holds, hpoint]
          exact hholds)
        cases hmain.symm.trans hrequest
      · rcases List.mem_append.mp (hs.blocked hquit hsetup) with hmem | hmem
        · exact Or.inr (Or.inl hmem)
        · obtain ⟨j, hj⟩ := List.getElem?_of_mem hmem
          by_cases hij : j = i
          · subst hij
            exact Or.inl (Option.some_inj.mp (hpoint.symm.trans hj))
          · exact Or.inr (Or.inr ⟨j, hij, hj⟩)
    refine ⟨hwakes.1, fun hquit hsetup ↦ ?_⟩
    show _ ∈ s'.handlers ++ s.requests.set i point'
    rw [hhandlers]
    rcases hwakes.2 hquit hsetup with rfl | hmem | ⟨j, hij, hj⟩
    · exact List.mem_append_right _ (List.mem_set hlt _)
    · exact List.mem_append_left _ hmem
    · refine List.mem_append_right _ (List.mem_of_getElem? (i := j) ?_)
      rw [List.getElem?_set_ne (Ne.symm hij), hj]

/-- **No wakeup is lost**, whatever the signals do. -/
theorem not_lostWakeup_of_run (h : run step start sched = some s) : ¬ s.LostWakeup := by
  have hboth : s.Locked ∧ s.Wakes :=
    run_invariant (P := fun m ↦ m.Locked ∧ m.Wakes)
      (fun _ _ _ hstep hm ↦ ⟨hm.1.of_step hstep, hm.2.of_step hm.1 hstep⟩) h
      ⟨locked_start, wakes_start⟩
  rintro ⟨hquit, ⟨notified, hsetup⟩, hpending⟩
  rcases notified with _ | _
  · exact hpending (Or.inr (List.mem_append.mp (hboth.2.blocked hquit hsetup)))
  · exact hpending (Or.inl hsetup)

/-! ## Handlers that wait for themselves -/

/-- What the topmost handler is on top of does not hold `m`. -/
def Clear (s : StopState) : Prop :=
  s.handlers ≠ [] → s.setup.holds = false ∧ ∀ point ∈ s.handlers.tail, point.holds = false

theorem Locked.owner_ne_main_iff (hs : s.Locked) :
    s.owner ≠ some .main ↔ s.setup.holds = false ∧ ∀ point ∈ s.handlers, point.holds = false := by
  have hmain := hs.owner .main
  rw [Ne, hmain, Holds, mainHolds, Nat.not_lt, Nat.le_zero, Nat.add_eq_zero_iff,
    List.countP_eq_zero]
  simp

theorem Clear.not_waitsForItself (hs : s.Clear) (hlocked : s.Locked) : ¬ s.WaitsForItself := by
  rintro ⟨hhead, howner⟩
  obtain ⟨rest, hhandlers⟩ := List.head?_eq_some_iff.mp hhead
  obtain ⟨hsetup, htail⟩ := hs (by rw [hhandlers]; exact List.cons_ne_nil _ _)
  rw [hhandlers, List.tail_cons] at htail
  refine hlocked.owner_ne_main_iff.mpr ⟨hsetup, fun point hmem ↦ ?_⟩ howner
  rw [hhandlers] at hmem
  rcases List.mem_cons.mp hmem with rfl | hmem
  · rfl
  · exact htail point hmem

/-- **One step keeps the way clear**, unless it is a signal in the wrong place. -/
theorem Clear.of_step (hs : s.Clear) (hlocked : s.Locked) (h : step s a = some t)
    (hsignal : a = .signal → s.owner ≠ some .main) : t.Clear := by
  rcases a with outcome | _ | _ | _ | i
  case setup =>
    obtain ⟨hnil, hadv⟩ := Option.ite_none_right_eq_some.mp h
    exact fun hne ↦ absurd ((advanceSetup_spec hadv).1.trans hnil) hne
  case signal =>
    cases h
    exact fun _ ↦ hlocked.owner_ne_main_iff.mp (hsignal rfl)
  case handler =>
    rw [step] at h
    split at h
    · cases h
    · rename_i handlers hhandlers
      cases h
      obtain ⟨hsetup, htail⟩ := hs (by rw [hhandlers]; exact List.cons_ne_nil _ _)
      rw [hhandlers] at htail
      exact fun _ ↦ ⟨hsetup, fun point hmem ↦ htail point (List.mem_of_mem_tail hmem)⟩
    · rename_i point handlers hnot hhandlers
      obtain ⟨⟨point', s'⟩, hadv, rfl⟩ := Option.map_eq_some_iff.mp h
      obtain ⟨hsetup, htail⟩ := hs (by rw [hhandlers]; exact List.cons_ne_nil _ _)
      rw [hhandlers] at htail
      exact fun _ ↦ ⟨(holds_advanceStop hadv).2.2.1.trans hsetup, htail⟩
  case request =>
    cases h
    exact hs
  case advance =>
    obtain ⟨point, -, hmap⟩ := Option.bind_eq_some_iff.mp h
    obtain ⟨⟨point', s'⟩, hadv, rfl⟩ := Option.map_eq_some_iff.mp hmap
    obtain ⟨hhandlers, -, hsetup, -⟩ := holds_advanceStop hadv
    show s'.handlers ≠ [] → s'.setup.holds = false ∧ ∀ point ∈ s'.handlers.tail, point.holds = false
    rw [hhandlers, hsetup]
    exact hs

/-- **A stop request never hangs, exactly if every signal comes while the thread of `setup` does not
hold `m`.** -/
theorem neverHangs_iff (h : run step start sched = some s) :
    (∀ done ρ, done <+: sched → run step start done = some ρ →
        ¬ ρ.WaitsForItself ∧ ¬ ρ.LostWakeup) ↔
      SignalsOutside sched := by
  constructor
  · rintro hsafe done rest ρ rfl hρ howner
    have hsignal : run step start (done ++ [.signal]) =
        some { ρ with handlers := .locking :: ρ.handlers } :=
      run_concat_eq_some.mpr ⟨ρ, hρ, rfl⟩
    exact (hsafe _ _ ⟨rest, by simp⟩ hsignal).1 ⟨rfl, howner⟩
  · rintro houtside done ρ ⟨rest, rfl⟩ hρ
    refine ⟨?_, not_lostWakeup_of_run hρ⟩
    have hboth : ρ.Locked ∧ ρ.Clear := by
      refine run_invariant_of_meets (P := fun m ↦ m.Locked ∧ m.Clear)
        (C := fun m a ↦ a = .signal → m.owner ≠ some .main)
        (fun _ _ _ hstep hC hm ↦ ⟨hm.1.of_step hstep, hm.2.of_step hm.1 hstep hC⟩) hρ ?_
        ⟨locked_start, nofun⟩
      rintro before a after m rfl hm rfl
      exact houtside before (after ++ rest) m (by simp) hm
    exact hboth.2.not_waitsForItself hboth.1

/-- Two requests while `setup` is blocked: a signal, and a thread of its own. -/
theorem neverHangs_iff_blocked :
    ∃ s, run step start (List.replicate 12 (.setup .done) ++
          [.signal, .handler, .request, .handler, .handler, .handler, .handler, .advance 0]) =
        some s ∧
      ((∀ done ρ, done <+: List.replicate 12 (.setup .done) ++
            [.signal, .handler, .request, .handler, .handler, .handler, .handler, .advance 0] →
          run step start done = some ρ → ¬ ρ.WaitsForItself ∧ ¬ ρ.LostWakeup) ↔
        SignalsOutside (List.replicate 12 (.setup .done) ++
          [.signal, .handler, .request, .handler, .handler, .handler, .handler, .advance 0])) :=
  ⟨_, rfl, neverHangs_iff rfl⟩

/-- A signal during start-up: neither the handler nor `setup` can ever go on. -/
theorem not_neverHangs_startingUp :
    ∃ s, run step start [.setup .done, .setup .done, .signal] = some s ∧ s.WaitsForItself ∧
      step s .handler = none ∧ ∀ outcome, step s (.setup outcome) = none :=
  ⟨_, rfl, ⟨rfl, rfl⟩, rfl, fun _ ↦ rfl⟩

end StopState

end Ekg
