import Ekg.Pubsub.GetMsg
import Mathlib.Data.List.Infix

/-!
# The time that fetching takes

`getMsg` is given a number of microseconds.  It keeps them in `timeout_ms`, and `consume`, which
counts in milliseconds, is called with that number.  What is left of the time is never computed:
the line that would have done it is commented out.  So a call of `consume` may last a thousand
times as long as it should, and from 2³¹ microseconds on the narrowing to `int` makes it negative,
which is no limit at all.  A call that comes back without a message goes past the look at the clock.

`keepsBudget_iff` says when none of that matters.
-/

set_option autoImplicit false

namespace Ekg

open Steps

namespace GetMsgLoop

variable {messages : List SubscriberInterfaceElement} {mNum timeo : UInt32} {now called : ℤ}
  {consumed done : List Consumed} {s t : GetMsgLoop} {c : Consumed}

/-- What is left of the time, in milliseconds, rounded up. -/
def remainingMs (deadline clock : ℤ) : ℤ := (deadline - clock + 999999) / 1000000

/-- A call of `consume` that is made at `called` keeps to the time that is left. -/
structure WithinBudget (s : GetMsgLoop) (called : ℤ) : Prop where
  nonneg : 0 ≤ s.consumeTimeout.toInt
  le : s.consumeTimeout.toInt ≤ remainingMs s.deadline called
  inTime : called ≤ s.deadline

/-- Every call of `consume` keeps to the time that is left when it is made. -/
def KeepsBudget (messages : List SubscriberInterfaceElement) (mNum timeo : UInt32) (now : ℤ)
    (consumed : List Consumed) : Prop :=
  Throughout (fun done c ↦ ∀ s, run (step mNum) (start messages timeo now) done = some s →
    WithinBudget s c.called) consumed

/-- The clock does not go back. -/
def NonDecreasing (now : ℤ) (consumed : List Consumed) : Prop :=
  (now :: consumed.flatMap fun c ↦ [c.called, c.clock]).Pairwise (· ≤ ·)

/-- The end of a partition was met with a message in the vector. -/
def EofSeen (messages : List SubscriberInterfaceElement) (done : List Consumed) : Prop :=
  ∃ pre c, pre ++ [c] <+: done ∧ c.isEof = true ∧ messages ++ pre.filterMap Consumed.received ≠ []

theorem not_eofSeen_nil : ¬ EofSeen messages [] := by
  rintro ⟨pre, c, hpre, -⟩
  simp at hpre

theorem eofSeen_concat :
    EofSeen messages (done ++ [c]) ↔
      EofSeen messages done ∨
        c.isEof = true ∧ messages ++ done.filterMap Consumed.received ≠ [] := by
  refine ⟨fun ⟨pre, d, hpre, heof⟩ ↦ ?_, fun h ↦ ?_⟩
  · rcases List.prefix_concat_iff.mp hpre with heq | hpre
    · obtain ⟨rfl, hd⟩ := List.append_inj' heq rfl
      obtain rfl := List.singleton_inj.mp hd
      exact Or.inr heof
    · exact Or.inl ⟨pre, d, hpre, heof⟩
  · rcases h with ⟨pre, d, hpre, heof⟩ | heof
    · exact ⟨pre, d, hpre.trans (List.prefix_append _ _), heof⟩
    · exact ⟨done, c, List.prefix_refl _, heof⟩

/-- The timeout of a call is 1 if the end of a partition was met in time, and else what `getMsg`
was given. -/
theorem timeoutMs_of_run (h : run (step mNum) (start messages timeo now) done = some s) :
    EofSeen messages done ∧ s.timeoutMs = 1 ∨
      ¬ EofSeen messages done ∧ s.timeoutMs = timeo.toNat := by
  refine run_induction
    (P := fun done s ↦ EofSeen messages done ∧ s.timeoutMs = 1 ∨
      ¬ EofSeen messages done ∧ s.timeoutMs = (timeo.toNat : ℤ))
    (Or.inr ⟨not_eofSeen_nil, rfl⟩) (fun done c m t hrun hm hstep ↦ ?_) h
  rw [eofSeen_concat, (stepSpec hstep).timeoutMs, messages_of_run hrun]
  by_cases heof : c.isEof = true ∧ messages ++ done.filterMap Consumed.received ≠ []
  · exact Or.inl ⟨Or.inr heof, if_pos heof⟩
  · rw [if_neg heof, or_iff_left heof]
    exact hm

theorem deadline_of_run (h : run (step mNum) (start messages timeo now) done = some s) :
    s.deadline = now + timeo.toNat * 1000 :=
  run_invariant (P := fun s ↦ s.deadline = now + timeo.toNat * 1000)
    (fun _ _ _ hstep hm ↦ (stepSpec hstep).deadline.trans hm) h rfl

theorem one_le_remainingMs {deadline clock : ℤ} :
    1 ≤ remainingMs deadline clock ↔ clock < deadline := by
  unfold remainingMs
  omega

/-- The narrowing to `int`. -/
theorem consumeTimeout_toInt (h : s.timeoutMs = timeo.toNat) :
    s.consumeTimeout.toInt =
      if timeo.toNat < 2147483648 then (timeo.toNat : ℤ) else timeo.toNat - 4294967296 := by
  have hlt := timeo.toNat_lt
  rw [consumeTimeout, h, Int32.toInt_ofInt, Int.bmod_def, Int32.size]
  split <;> split <;> omega

theorem consumeTimeout_one (h : s.timeoutMs = 1) : s.consumeTimeout.toInt = 1 := by
  rw [consumeTimeout, h]
  rfl

/-- **When a call keeps to the time that is left**: if it is given a 1 and made in time, or a 0 and
made at once. -/
theorem withinBudget_iff (h : run (step mNum) (start messages timeo now) done = some s)
    (hcalled : now ≤ called) :
    WithinBudget s called ↔
      (EofSeen messages done ∨ timeo.toNat = 1) ∧ called < s.deadline ∨
        ¬ EofSeen messages done ∧ timeo.toNat = 0 ∧ called = now := by
  have hdeadline := deadline_of_run h
  rcases timeoutMs_of_run h with ⟨heof, htimeout⟩ | ⟨heof, htimeout⟩
  · have hone := consumeTimeout_one htimeout
    simp only [heof, true_or, not_true_eq_false, false_and, or_false, true_and]
    refine ⟨fun hwithin ↦ one_le_remainingMs.mp (hone ▸ hwithin.le), fun hlt ↦ ?_⟩
    exact ⟨by omega, by rw [hone]; exact one_le_remainingMs.mpr hlt, by omega⟩
  · have htoInt := consumeTimeout_toInt htimeout
    have hlt := timeo.toNat_lt
    simp only [heof, false_or, not_false_eq_true, true_and]
    refine ⟨fun ⟨hnonneg, hle, hin⟩ ↦ ?_, fun hcases ↦ ?_⟩
    · unfold remainingMs at hle
      split at htoInt <;> omega
    · have hsmall : timeo.toNat < 2147483648 := by omega
      rw [if_pos hsmall] at htoInt
      refine ⟨by omega, ?_, by omega⟩
      unfold remainingMs
      omega

theorem NonDecreasing.now_le (h : NonDecreasing now consumed) (hc : c ∈ consumed) :
    now ≤ c.called :=
  List.rel_of_pairwise_cons h (List.mem_flatMap.mpr ⟨c, hc, List.mem_cons_self⟩)

theorem keepsBudget_iff_calls
    (h : run (step mNum) (start messages timeo now) consumed = some t)
    (hclock : NonDecreasing now consumed) :
    KeepsBudget messages mNum timeo now consumed ↔ Throughout (fun done c ↦
      (EofSeen messages done ∨ timeo.toNat = 1) ∧ c.called < now + timeo.toNat * 1000 ∨
        ¬ EofSeen messages done ∧ timeo.toNat = 0 ∧ c.called = now) consumed := by
  refine ⟨fun hkeeps done c rest heq ↦ ?_, fun hcalls done c rest heq m hm ↦ ?_⟩
  · obtain ⟨m, hm, -⟩ := run_append_eq_some.mp (heq ▸ h)
    have hcalled := hclock.now_le (c := c) (by simp [heq])
    rw [← deadline_of_run hm]
    exact (withinBudget_iff hm hcalled).mp (hkeeps done c rest heq m hm)
  · have hcalled := hclock.now_le (c := c) (by simp [heq])
    rw [withinBudget_iff hm hcalled, deadline_of_run hm]
    exact hcalls done c rest heq

/-- **When `getMsg` keeps to its time budget**: when it makes no call at all, when it is given a
single microsecond and makes its calls in it, or when it is given no time, takes none, and makes no
call after the end of a partition that it met with a message in the vector. -/
theorem keepsBudget_iff (h : run (step mNum) (start messages timeo now) consumed = some t)
    (hclock : NonDecreasing now consumed) :
    KeepsBudget messages mNum timeo now consumed ↔
      consumed = [] ∨ (timeo.toNat = 1 ∧ ∀ c ∈ consumed, c.called < now + 1000) ∨
        (timeo.toNat = 0 ∧
          Throughout (fun done c ↦ c.called = now ∧ ¬ EofSeen messages done) consumed) := by
  rw [keepsBudget_iff_calls h hclock]
  constructor
  · intro hcalls
    rcases hconsumed : consumed with _ | ⟨c, rest⟩
    · exact Or.inl rfl
    · -- the first call is made with the number of microseconds
      rw [← hconsumed]
      rcases hcalls [] c rest hconsumed with ⟨htimeo, -⟩ | ⟨-, htimeo, -⟩
      · have hone := htimeo.resolve_left not_eofSeen_nil
        refine Or.inr (Or.inl ⟨hone, fun d hd ↦ ?_⟩)
        obtain ⟨done, rest, heq⟩ := List.append_of_mem hd
        rcases hcalls done d rest heq with ⟨-, hcalled⟩ | ⟨-, hzero, -⟩ <;> omega
      · refine Or.inr (Or.inr ⟨htimeo, fun done d rest heq ↦ ?_⟩)
        have hle := hclock.now_le (c := d) (by simp [heq])
        rcases hcalls done d rest heq with ⟨-, hcalled⟩ | ⟨heof, -, hcalled⟩
        · omega
        · exact ⟨hcalled, heof⟩
  · rintro (rfl | ⟨hone, hcalled⟩ | ⟨hzero, hcalled⟩) done c rest heq
    · simp at heq
    · have hlt := hcalled c (by simp [heq])
      exact Or.inl ⟨Or.inr hone, by omega⟩
    · obtain ⟨hnow, heof⟩ := hcalled done c rest heq
      exact Or.inr ⟨heof, hzero, hnow⟩

/-- A microsecond, with two calls in it. -/
theorem keepsBudget_iff_one :
    KeepsBudget [] 5 1 0 [⟨0, none, 400⟩, ⟨500, some ⟨.noError, none, []⟩, 2000⟩] ↔
      ([⟨0, none, 400⟩, ⟨500, some ⟨.noError, none, []⟩, 2000⟩] : List Consumed) = [] ∨
        ((1 : UInt32).toNat = 1 ∧
          ∀ c ∈ ([⟨0, none, 400⟩, ⟨500, some ⟨.noError, none, []⟩, 2000⟩] : List Consumed),
            c.called < 0 + 1000) ∨
        ((1 : UInt32).toNat = 0 ∧
          Throughout (fun done c ↦ c.called = 0 ∧ ¬ EofSeen [] done)
            [⟨0, none, 400⟩, ⟨500, some ⟨.noError, none, []⟩, 2000⟩]) :=
  keepsBudget_iff (t := { start [] 1 0 with
    messages := [⟨"default-key", []⟩], late := true }) (by decide) (by unfold NonDecreasing; decide)

/-- The default of the option, 250 microseconds: the first call may last 250 milliseconds. -/
theorem not_keepsBudget :
    ¬ ∀ t, run (step 10) (start [] 250 0) [⟨0, some ⟨.timedOut, none, []⟩, 250000000⟩] = some t →
      NonDecreasing 0 [⟨0, some ⟨.timedOut, none, []⟩, 250000000⟩] →
        KeepsBudget [] 10 250 0 [⟨0, some ⟨.timedOut, none, []⟩, 250000000⟩] := by
  intro h
  have hkeeps := h { start [] 250 0 with looping := false, late := true } (by decide)
    (by unfold NonDecreasing; decide)
  have hwithin := hkeeps [] ⟨0, some ⟨.timedOut, none, []⟩, 250000000⟩ [] rfl (start [] 250 0) rfl
  exact absurd hwithin.le (by decide)

end GetMsgLoop

end Ekg
