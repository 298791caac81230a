import Ekg.Lib.SharedPtr
import Ekg.Lib.Steps

/-!
# The end of a worker

`AcquireCommandWorker` registers a bound member function with the broadcaster of the service
manager.  The broadcaster keeps a weak pointer to the function, the worker the only shared one: its
`handler_token`.  The function itself holds nothing but the `this` of the worker.

When the worker is destroyed, the token goes first, being the member declared last, and the other
members follow.  The scheduler does not stop for that.  A weak pointer that has lost its token
cannot be locked any more; but one that was locked before keeps the function, and the function keeps
going on the members of the worker.

`usesNoDestroyed_iff` is what remains true: no handler call sees a destroyed member exactly in the
runs in which a call that is under way when the token goes comes to its end before the next member
goes.
-/

set_option autoImplicit false

namespace Ekg

open Steps

/-- The members of `AcquireCommandWorker`, in the order of their declaration. -/
inductive WorkerMember
  | channelMapMtx | channelTopicsMap | logger | publisher | epicsServiceManager | handlerToken
  deriving DecidableEq, Repr

/-- All the members, in the order of their declaration. -/
def WorkerMember.all : List WorkerMember :=
  [channelMapMtx, channelTopicsMap, logger, publisher, epicsServiceManager, handlerToken]

/-- Who holds a shared pointer to the bound function. -/
inductive TargetOwner
  | token | scheduler
  deriving DecidableEq, Repr

/-- How far the scheduler is in `broadcast`. -/
inductive BroadcastPoint
  | idle
  /-- The weak pointer is locked, the function not called yet. -/
  | locked
  /-- In `epicsMonitorEvent`. -/
  | running
  /-- The function has returned, the pointer is still held. -/
  | returned
  deriving DecidableEq, Repr

/-- In `epicsMonitorEvent`, or about to be. -/
def BroadcastPoint.inCall : BroadcastPoint → Bool
  | .locked => true
  | .running => true
  | _ => false

/-- The worker and its handler, between the scheduler and the destructor. -/
structure WorkerLifetime where
  /-- The weak pointer is among the targets of the broadcaster. -/
  listed : Bool
  /-- The bound function. -/
  target : SharedPtr TargetOwner
  /-- The members that are not destroyed. -/
  members : List WorkerMember
  point : BroadcastPoint
  deriving DecidableEq, Repr

/-- A step of the scheduler, or of the destructor of the worker. -/
inductive LifetimeStep
  | purge
  | lock
  | call
  | handlerReturn
  | release
  /-- The destructor destroys `handler_token`. -/
  | releaseToken
  /-- The destructor destroys another member. -/
  | destroyMember
  deriving DecidableEq, Repr

namespace WorkerLifetime

/-- The worker at work. -/
def start : WorkerLifetime where
  listed := true
  target := SharedPtr.null.copy .token
  members := WorkerMember.all
  point := .idle

/-- One step. -/
def step (s : WorkerLifetime) : LifetimeStep → Option WorkerLifetime
  | .purge =>
    if s.point = .idle then some { s with listed := s.listed && !s.target.expired } else none
  | .lock =>
    if s.point = .idle ∧ s.listed then
      match s.target.lock .scheduler with
      | some target => some { s with target, point := .locked }
      | none => some s
    else none
  | .call => if s.point = .locked then some { s with point := .running } else none
  | .handlerReturn => if s.point = .running then some { s with point := .returned } else none
  | .release =>
    if s.point = .returned then
      some { s with target := s.target.reset .scheduler, point := .idle }
    else none
  -- members are destroyed in the reverse order of their declaration
  | .releaseToken =>
    if s.members.getLast? = some .handlerToken then
      some { s with target := s.target.reset .token, members := s.members.dropLast }
    else none
  | .destroyMember =>
    match s.members.getLast? with
    | none => none
    | some .handlerToken => none
    | some _ => some { s with members := s.members.dropLast }

/-- The handler runs, or is about to run, on a worker of which a member is destroyed. -/
def UsesDestroyed (s : WorkerLifetime) : Prop :=
  s.point.inCall = true ∧ ∃ m, m ≠ .handlerToken ∧ m ∉ s.members

/-- In the schedule, a call that is under way when the token is released returns before another
member is destroyed. -/
def ReturnsFirst (sched : List LifetimeStep) : Prop :=
  ∀ done between rest ρ, sched = done ++ .releaseToken :: between ++ .destroyMember :: rest →
    run step start done = some ρ → ρ.point.inCall = true → .handlerReturn ∈ between

/-! ## Who holds the function -/

/-- The token is the last member, and the first to go. -/
theorem handlerToken_mem_iff {members : List WorkerMember} (h : members <+: WorkerMember.all) :
    (.handlerToken ∈ members ↔ members.getLast? = some .handlerToken) ∧
      .handlerToken ∉ members.dropLast := by
  have hall : ∀ l ∈ WorkerMember.all.inits,
      (.handlerToken ∈ l ↔ l.getLast? = some .handlerToken) ∧ .handlerToken ∉ l.dropLast := by
    decide
  exact hall members ((List.mem_inits _ _).mpr h)

/-- What is true at any time. -/
structure Inv (s : WorkerLifetime) : Prop where
  members : s.members <+: WorkerMember.all
  nodup : s.target.owners.Nodup
  token : .token ∈ s.target.owners ↔ .handlerToken ∈ s.members
  scheduler : .scheduler ∈ s.target.owners ↔ s.point ≠ .idle

variable {s t : WorkerLifetime} {a : LifetimeStep} {sched : List LifetimeStep}

theorem inv_start : Inv start := ⟨List.prefix_refl _, by decide, by decide, by decide⟩

/-- A member other than the token is destroyed after the token. -/
theorem Inv.destroyMember (hs : s.Inv) (h : step s .destroyMember = some t) :
    .handlerToken ∉ s.members ∧ t = { s with members := s.members.dropLast } := by
  rw [step] at h
  split at h
  · cases h
  · cases h
  · rename_i m hm hlast
    refine ⟨?_, (Option.some_inj.mp h).symm⟩
    rw [(handlerToken_mem_iff hs.members).1, hlast]
    exact fun heq ↦ hm (Option.some_inj.mp heq)

/-- It is gone then. -/
theorem Inv.exists_destroyed (hs : s.Inv) (h : step s .destroyMember = some t) :
    ∃ m, m ≠ .handlerToken ∧ m ∉ t.members := by
  rw [step] at h
  split at h
  · cases h
  · cases h
  · rename_i m hm hlast
    cases h
    refine ⟨m, fun heq ↦ hm heq, fun hmem ↦ ?_⟩
    have hnodup : s.members.Nodup := hs.members.sublist.nodup (by decide)
    rw [← List.dropLast_append_getLast? m hlast] at hnodup
    exact (List.nodup_append.mp hnodup).2.2 m hmem m (List.mem_singleton_self m) rfl

theorem Inv.of_step (hs : s.Inv) (h : step s a = some t) : t.Inv := by
  obtain ⟨hmembers, hnodup, htoken, hscheduler⟩ := hs
  rcases a with _ | _ | _ | _ | _ | _ | _
  case purge =>
    obtain ⟨hidle, heq⟩ := Option.ite_none_right_eq_some.mp h
    cases heq
    exact ⟨hmembers, hnodup, htoken, hscheduler⟩
  case lock =>
    obtain ⟨⟨hidle, -⟩, heq⟩ := Option.ite_none_right_eq_some.mp h
    split at heq
    · rename_i target hlock
      obtain ⟨-, rfl⟩ := SharedPtr.lock_eq_some_iff.mp hlock
      cases heq
      have hnot : .scheduler ∉ s.target.owners := fun hmem ↦ hscheduler.mp hmem hidle
      exact ⟨hmembers, List.nodup_cons.mpr ⟨hnot, hnodup⟩,
        by simpa [SharedPtr.copy] using htoken, by simp [SharedPtr.copy]⟩
    · cases heq
      exact ⟨hmembers, hnodup, htoken, hscheduler⟩
  case call | handlerReturn =>
    obtain ⟨hpoint, heq⟩ := Option.ite_none_right_eq_some.mp h
    cases heq
    exact ⟨hmembers, hnodup, htoken, by simp [hscheduler, hpoint]⟩
  case release =>
    obtain ⟨hpoint, heq⟩ := Option.ite_none_right_eq_some.mp h
    cases heq
    exact ⟨hmembers, hnodup.erase _, by simpa [SharedPtr.reset] using htoken,
      by simp [SharedPtr.reset, hnodup.not_mem_erase]⟩
  case releaseToken =>
    obtain ⟨hlast, heq⟩ := Option.ite_none_right_eq_some.mp h
    cases heq
    refine ⟨(List.dropLast_prefix _).trans hmembers, hnodup.erase _, ?_,
      by simpa [SharedPtr.reset] using hscheduler⟩
    simp [SharedPtr.reset, hnodup.not_mem_erase, (handlerToken_mem_iff hmembers).2]
  case destroyMember =>
    obtain ⟨hnot, rfl⟩ := Inv.destroyMember ⟨hmembers, hnodup, htoken, hscheduler⟩ h
    refine ⟨(List.dropLast_prefix _).trans hmembers, hnodup, ?_, hscheduler⟩
    exact htoken.trans (iff_of_false hnot (handlerToken_mem_iff hmembers).2)

theorem inv_of_run (h : run step start sched = some s) : s.Inv :=
  run_invariant (P := Inv) (fun _ _ _ hstep hs ↦ hs.of_step hstep) h inv_start

/-! ## Calls and members -/

/-- A call ends with the return of the handler. -/
theorem inCall_of_step (h : step s a = some t) (ha : a ≠ .handlerReturn)
    (hs : s.point.inCall = true) : t.point.inCall = true := by
  rcases a with _ | _ | _ | _ | _ | _ | _
  case purge =>
    obtain ⟨hidle, -⟩ := Option.ite_none_right_eq_some.mp h
    rw [hidle] at hs
    cases hs
  case lock =>
    obtain ⟨⟨hidle, -⟩, -⟩ := Option.ite_none_right_eq_some.mp h
    rw [hidle] at hs
    cases hs
  case call =>
    obtain ⟨-, heq⟩ := Option.ite_none_right_eq_some.mp h
    cases heq
    rfl
  case handlerReturn => exact absurd rfl ha
  case release =>
    obtain ⟨hpoint, -⟩ := Option.ite_none_right_eq_some.mp h
    rw [hpoint] at hs
    cases hs
  case releaseToken =>
    obtain ⟨-, heq⟩ := Option.ite_none_right_eq_some.mp h
    cases heq
    exact hs
  case destroyMember =>
    rw [step] at h
    split at h <;> cases h
    exact hs

/-- **Without the token, no call begins.** -/
theorem Inv.inCall_of_step (hs : s.Inv) (h : step s a = some t) (htoken : .handlerToken ∉ s.members)
    (ht : t.point.inCall = true) : s.point.inCall = true ∧ a ≠ .handlerReturn := by
  rcases a with _ | _ | _ | _ | _ | _ | _
  case purge =>
    obtain ⟨-, heq⟩ := Option.ite_none_right_eq_some.mp h
    cases heq
    exact ⟨ht, nofun⟩
  case lock =>
    obtain ⟨⟨hidle, -⟩, heq⟩ := Option.ite_none_right_eq_some.mp h
    split at heq
    · -- nobody is left to lock the pointer for
      rename_i target hlock
      obtain ⟨⟨o, ho⟩, -⟩ := SharedPtr.lock_eq_some_iff.mp hlock
      rcases o with _ | _
      · exact absurd (hs.token.mp ho) htoken
      · exact absurd hidle (hs.scheduler.mp ho)
    · cases heq
      exact ⟨ht, nofun⟩
  case call =>
    obtain ⟨hlocked, -⟩ := Option.ite_none_right_eq_some.mp h
    exact ⟨by rw [hlocked]; rfl, nofun⟩
  case handlerReturn | release =>
    obtain ⟨-, heq⟩ := Option.ite_none_right_eq_some.mp h
    cases heq
    cases ht
  case releaseToken =>
    obtain ⟨-, heq⟩ := Option.ite_none_right_eq_some.mp h
    cases heq
    exact ⟨ht, nofun⟩
  case destroyMember =>
    obtain ⟨-, rfl⟩ := hs.destroyMember h
    exact ⟨ht, nofun⟩

/-- The scheduler does not touch the members. -/
theorem members_of_step (h : step s a = some t) (hdestroy : a ≠ .destroyMember) :
    t.members = s.members ∨ (a = .releaseToken ∧ s.members.getLast? = some .handlerToken ∧
      t.members = s.members.dropLast) := by
  rcases a with _ | _ | _ | _ | _ | _ | _
  case lock =>
    obtain ⟨-, heq⟩ := Option.ite_none_right_eq_some.mp h
    split at heq <;> cases heq <;> exact Or.inl rfl
  case releaseToken =>
    obtain ⟨hlast, heq⟩ := Option.ite_none_right_eq_some.mp h
    cases heq
    exact Or.inr ⟨rfl, hlast, rfl⟩
  case destroyMember => exact absurd rfl hdestroy
  all_goals
    obtain ⟨-, heq⟩ := Option.ite_none_right_eq_some.mp h
    cases heq
    exact Or.inl rfl

/-- A destroyed member stays destroyed. -/
theorem Inv.members_subset (hs : s.Inv) (h : step s a = some t) : t.members ⊆ s.members := by
  by_cases ha : a = .destroyMember
  · subst ha
    obtain ⟨-, rfl⟩ := hs.destroyMember h
    exact (List.dropLast_prefix _).subset
  · rcases members_of_step h ha with heq | ⟨-, -, heq⟩ <;> rw [heq]
    · exact List.Subset.refl _
    · exact (List.dropLast_prefix _).subset

/-- A call that is under way some time after the token has gone was under way when it went. -/
theorem Inv.inCall_of_run (hs : s.Inv) (h : run step s sched = some t)
    (htoken : .handlerToken ∉ s.members) (ht : t.point.inCall = true) :
    s.point.inCall = true ∧ .handlerReturn ∉ sched := by
  induction sched generalizing s with
  | nil =>
    cases h
    exact ⟨ht, List.not_mem_nil⟩
  | cons a sched ih =>
    obtain ⟨m, hstep, hrest⟩ := run_cons_eq_some.mp h
    obtain ⟨hm, hnot⟩ := ih (hs.of_step hstep) hrest fun hmem ↦
      htoken (hs.members_subset hstep hmem)
    obtain ⟨hcall, ha⟩ := hs.inCall_of_step hstep htoken hm
    exact ⟨hcall, List.not_mem_cons_of_ne_of_not_mem (Ne.symm ha) hnot⟩

/-- The token goes by `releaseToken` only. -/
theorem releaseToken_mem_of_run (h : run step start sched = some s)
    (htoken : .handlerToken ∉ s.members) : .releaseToken ∈ sched := by
  by_contra hnot
  have hboth : s.Inv ∧ .handlerToken ∈ s.members := by
    refine run_invariant_of_mem (P := fun m ↦ m.Inv ∧ .handlerToken ∈ m.members)
      (fun a ha m m' hstep hm ↦ ⟨hm.1.of_step hstep, ?_⟩) h ⟨inv_start, by decide⟩
    by_cases hdestroy : a = .destroyMember
    · subst hdestroy
      exact absurd hm.2 (hm.1.destroyMember hstep).1
    · rcases members_of_step hstep hdestroy with heq | ⟨rfl, -, -⟩
      · rw [heq]
        exact hm.2
      · exact absurd ha hnot
  exact htoken hboth.2

/-- Any other member goes by `destroyMember` only. -/
theorem destroyMember_mem_of_run {m : WorkerMember} (h : run step start sched = some s)
    (hm : m ≠ .handlerToken) (hdestroyed : m ∉ s.members) : .destroyMember ∈ sched := by
  by_contra hnot
  refine hdestroyed (run_invariant_of_mem (P := fun ρ ↦ m ∈ ρ.members)
    (fun a ha ρ ρ' hstep hmem ↦ ?_) h ?_)
  · rcases members_of_step hstep fun heq ↦ hnot (heq ▸ ha) with heq | ⟨-, hlast, heq⟩
    · rw [heq]
      exact hmem
    · -- what is dropped is the token
      have hsplit : ρ.members = ρ.members.dropLast ++ [.handlerToken] :=
        (List.dropLast_append_getLast? _ hlast).symm
      rw [hsplit] at hmem
      rw [heq]
      exact (List.mem_append.mp hmem).resolve_right fun hin ↦ hm (List.mem_singleton.mp hin)
  · revert hm
    cases m <;> decide

/-- **No handler call sees a destroyed member, exactly if a call that is under way when the token is
released returns before another member is destroyed.** -/
theorem usesNoDestroyed_iff (h : run step start sched = some s) :
    (∀ done ρ, done <+: sched → run step start done = some ρ → ¬ ρ.UsesDestroyed) ↔
      ReturnsFirst sched := by
  constructor
  · rintro hsafe done between rest ρ rfl hρ hcall
    by_contra hreturn
    obtain ⟨μ, hμ, hrest⟩ := run_append_eq_some.mp h
    obtain ⟨μ', hstep, -⟩ := run_cons_eq_some.mp hrest
    have hbetween : run step ρ (.releaseToken :: between) = some μ := by
      rwa [run_append_of_eq_some hρ] at hμ
    -- the call is still under way when the member is destroyed
    have hcall' : μ.point.inCall = true := by
      refine run_invariant_of_mem (P := fun m ↦ m.point.inCall = true)
        (fun a ha _ _ hstep' ↦ inCall_of_step hstep' ?_) hbetween hcall
      rintro rfl
      rcases List.mem_cons.mp ha with ha | ha
      · cases ha
      · exact hreturn ha
    have hdone : run step start (done ++ .releaseToken :: between ++ [.destroyMember]) = some μ' :=
      run_concat_eq_some.mpr ⟨μ, hμ, hstep⟩
    obtain ⟨-, rfl⟩ := (inv_of_run hμ).destroyMember hstep
    exact hsafe _ _ ⟨rest, by simp⟩ hdone ⟨hcall', (inv_of_run hμ).exists_destroyed hstep⟩
  · rintro hreturns done ρ ⟨rest, rfl⟩ hρ ⟨hcall, m, hm, hdestroyed⟩
    obtain ⟨d, r, rfl⟩ := List.append_of_mem (destroyMember_mem_of_run hρ hm hdestroyed)
    obtain ⟨μ, hμ, hrest⟩ := run_append_eq_some.mp hρ
    obtain ⟨μ', hstep, hafter⟩ := run_cons_eq_some.mp hrest
    have htoken := ((inv_of_run hμ).destroyMember hstep).1
    obtain ⟨done, between, rfl⟩ := List.append_of_mem (releaseToken_mem_of_run hμ htoken)
    obtain ⟨ν, hν, hbetween⟩ := run_append_eq_some.mp hμ
    obtain ⟨ν', hrelease, hbetween⟩ := run_cons_eq_some.mp hbetween
    -- the call was under way when the token went, and has not returned since
    have hν' : run step ν' (between ++ .destroyMember :: r) = some ρ :=
      run_append_eq_some.mpr ⟨μ, hbetween, hrest⟩
    obtain ⟨-, heq⟩ := Option.ite_none_right_eq_some.mp hrelease
    have hinv := inv_of_run hν
    have hgone : .handlerToken ∉ ν'.members := by
      cases heq
      exact (handlerToken_mem_iff hinv.members).2
    obtain ⟨hcall', hreturn⟩ := (hinv.of_step hrelease).inCall_of_run hν' hgone hcall
    refine hreturn (List.mem_append_left _ (hreturns done between (r ++ rest) ν (by simp) hν ?_))
    cases heq
    exact hcall'

/-- A call that has returned by the time the next member is destroyed. -/
theorem usesNoDestroyed_iff_returned :
    ∃ s, run step start [.purge, .lock, .call, .releaseToken, .handlerReturn, .destroyMember,
        .release, .purge] = some s ∧
      ((∀ done ρ, done <+: [.purge, .lock, .call, .releaseToken, .handlerReturn, .destroyMember,
          .release, .purge] → run step start done = some ρ → ¬ ρ.UsesDestroyed) ↔
        ReturnsFirst [.purge, .lock, .call, .releaseToken, .handlerReturn, .destroyMember,
          .release, .purge]) :=
  ⟨_, rfl, usesNoDestroyed_iff rfl⟩

/-- The pointer is locked, the whole worker destroyed, and the handler called. -/
theorem not_usesNoDestroyed_lockedBefore :
    ∃ s, run step start [.purge, .lock, .releaseToken, .destroyMember, .destroyMember,
        .destroyMember, .destroyMember, .destroyMember, .call] = some s ∧
      s.members = [] ∧ s.UsesDestroyed :=
  ⟨_, rfl, rfl, rfl, .publisher, by decide, by decide⟩

end WorkerLifetime

end Ekg
