import Ekg.Lib.Steps
import Ekg.Pubsub.RDKafkaPublisher
import Mathlib.Data.Nat.Find

/-!
# Waiting for the queue to be empty

`RDKafkaPublisher::flush` calls `poll` until `outq_len` is 0.  It has a parameter `timeo`, but that
is the time that one call of `poll` may take; how many calls there are depends on the queue alone,
and the queue is up to the broker and to the other threads.

The thread of `autoPoll`, where there is one, calls `flush` between two looks at
`_stop_inner_thread`, and `deinit` sets `_stop_inner_thread` and joins the thread.  So it waits for
the queue as well.

`outqLen n` is what the call of `outq_len` with the number `n` returns, and a call of `poll` is
taken to come back.  `returns_iff` and `joinEnds_iff` say when the waiting ends, and the last
section says what that means for the queue of a `Producer`.
-/

set_option autoImplicit false

namespace Ekg

open Steps

namespace RDKafkaPublisher

/-- `RDKafkaPublisher::flush`, if it is through with `fuel` looks at the queue: the timeouts of its
calls of `poll`, and the code. -/
def flush (timeo : ℤ) (outqLen : ℕ → ℤ) : ℕ → Option (List ℤ × ℤ)
  | 0 => none
  | fuel + 1 =>
    if outqLen 0 > 0 then
      (flush timeo (fun n ↦ outqLen (n + 1)) fuel).map fun r ↦ (timeo :: r.1, r.2)
    else some ([], 0)

/-- `flush` returns. -/
def Returns (timeo : ℤ) (outqLen : ℕ → ℤ) : Prop := ∃ fuel r, flush timeo outqLen fuel = some r

variable {timeo : ℤ} {outqLen : ℕ → ℤ} {fuel : ℕ} {r : List ℤ × ℤ}

/-- **What `flush` does**: a call of `poll` for every look at the queue, up to the first look at an
empty one. -/
theorem flush_eq_some_iff :
    flush timeo outqLen fuel = some r ↔
      ∃ n < fuel, outqLen n ≤ 0 ∧ (∀ i < n, 0 < outqLen i) ∧ r = (List.replicate n timeo, 0) := by
  induction fuel generalizing outqLen r with
  | zero => simp [flush]
  | succ fuel ih =>
    rw [flush]
    by_cases hpos : outqLen 0 > 0
    · rw [if_pos hpos]
      simp only [Option.map_eq_some_iff, ih]
      constructor
      · rintro ⟨-, ⟨n, hn, hempty, hfull, rfl⟩, rfl⟩
        refine ⟨n + 1, Nat.succ_lt_succ hn, hempty, fun i hi ↦ ?_, rfl⟩
        cases i with
        | zero => exact hpos
        | succ i => exact hfull i (Nat.lt_of_succ_lt_succ hi)
      · rintro ⟨n, hn, hempty, hfull, rfl⟩
        cases n with
        | zero => omega
        | succ n =>
          exact ⟨_, ⟨n, Nat.lt_of_succ_lt_succ hn, hempty,
            fun i hi ↦ hfull (i + 1) (Nat.succ_lt_succ hi), rfl⟩, rfl⟩
    · rw [if_neg hpos]
      constructor
      · rintro h
        cases h
        exact ⟨0, Nat.succ_pos fuel, by omega, fun i hi ↦ absurd hi (Nat.not_lt_zero i), rfl⟩
      · rintro ⟨n, hn, -, hfull, rfl⟩
        cases n with
        | zero => rfl
        | succ n => exact absurd (hfull 0 (Nat.succ_pos n)) hpos

/-- Two polls, and the queue is empty. -/
example : flush 10 (fun n ↦ 2 - n) 5 = some ([10, 10], 0) := by decide

/-- **When `flush` returns**: when it finds the queue empty some time. -/
theorem returns_iff : Returns timeo outqLen ↔ ∃ n, outqLen n ≤ 0 := by
  refine ⟨fun ⟨fuel, r, h⟩ ↦ ?_, fun h ↦ ?_⟩
  · obtain ⟨n, -, hempty, -⟩ := flush_eq_some_iff.mp h
    exact ⟨n, hempty⟩
  · have hempty := Nat.find_spec h
    have hfull : ∀ i < Nat.find h, 0 < outqLen i := fun i hi ↦ Int.not_le.mp (Nat.find_min h hi)
    exact ⟨_, _, flush_eq_some_iff.mpr ⟨Nat.find h, Nat.lt_succ_self _, hempty, hfull, rfl⟩⟩

end RDKafkaPublisher

/-! ## The poll thread -/

/-- Where the thread of `autoPoll` is. -/
inductive AutoPollPoint
  /-- Before the condition of the loop. -/
  | checking
  /-- Before `sleep_for`. -/
  | sleeping
  /-- In `flush(10)`, before `outq_len`. -/
  | looking
  /-- In `flush(10)`, before `poll`. -/
  | polling
  | left
  deriving DecidableEq, Repr

/-- Where `deinit` is. -/
inductive DeinitPoint
  | before
  /-- `_stop_inner_thread` is set, and `join` is called. -/
  | joining
  | joined
  deriving DecidableEq, Repr

/-- The poll thread, and the thread that destroys the publisher. -/
structure AutoPoll where
  point : AutoPollPoint := .checking
  /-- `_stop_inner_thread`. -/
  stopInnerThread : Bool := false
  deinit : DeinitPoint := .before
  /-- How many calls of `outq_len` there were. -/
  looks : ℕ := 0
  /-- The timeouts of the calls of `poll`. -/
  polls : List ℤ := []
  deriving DecidableEq, Repr

namespace AutoPoll

/-- Whose step it is. -/
inductive Actor
  | autoPoll | deinit
  deriving DecidableEq, Repr

/-- A step of the poll thread. -/
def stepAutoPoll (outqLen : ℕ → ℤ) (s : AutoPoll) : Option AutoPoll :=
  match s.point with
  | .checking => some { s with point := if s.stopInnerThread then .left else .sleeping }
  | .sleeping => some { s with point := .looking }
  | .looking =>
    some { s with
      point := if outqLen s.looks > 0 then .polling else .checking
      looks := s.looks + 1 }
  | .polling => some { s with point := .looking, polls := s.polls ++ [10] }
  | .left => none

/-- A step of `deinit`. -/
def stepDeinit (s : AutoPoll) : Option AutoPoll :=
  match s.deinit with
  | .before => some { s with stopInnerThread := true, deinit := .joining }
  | .joining => if s.point = .left then some { s with deinit := .joined } else none
  | .joined => none

/-- One step. -/
def step (outqLen : ℕ → ℤ) (s : AutoPoll) : Actor → Option AutoPoll
  | .autoPoll => stepAutoPoll outqLen s
  | .deinit => stepDeinit s

/-- Whenever `deinit` has begun to wait, the poll thread leaves its loop after finitely many steps,
and `join` ends. -/
def JoinEnds (outqLen : ℕ → ℤ) : Prop :=
  ∀ sched s, run (step outqLen) {} sched = some s → s.deinit = .joining →
    ∃ n t, run (step outqLen) s (List.replicate n .autoPoll ++ [.deinit]) = some t

variable {outqLen : ℕ → ℤ} {s t : AutoPoll} {sched : List Actor}

/-- The poll thread does not touch what is the other one's. -/
theorem frame_stepAutoPoll (h : stepAutoPoll outqLen s = some t) :
    t.deinit = s.deinit ∧ t.stopInnerThread = s.stopInnerThread := by
  unfold stepAutoPoll at h
  split at h <;> cases h <;> exact ⟨rfl, rfl⟩

/-- `deinit` waits only when it has set `_stop_inner_thread`. -/
theorem stopInnerThread_of_run (h : run (step outqLen) {} sched = some s) :
    s.deinit ≠ .before → s.stopInnerThread = true := by
  refine run_invariant (P := fun s ↦ s.deinit ≠ .before → s.stopInnerThread = true)
    (fun m actor t hstep hm hdeinit ↦ ?_) h (absurd rfl)
  cases actor with
  | autoPoll =>
    obtain ⟨hsame, hstop⟩ := frame_stepAutoPoll hstep
    rw [hsame] at hdeinit
    exact hstop.trans (hm hdeinit)
  | deinit =>
    simp only [step, stepDeinit] at hstep
    split at hstep
    · cases hstep
      rfl
    · rename_i hjoining
      obtain ⟨-, ht⟩ := Option.ite_none_right_eq_some.mp hstep
      cases ht
      exact hm (by simp [hjoining])
    · cases hstep

/-! ## The thread leaves -/

/-- The poll thread leaves its loop if nobody else does anything. -/
def Leaves (outqLen : ℕ → ℤ) (s : AutoPoll) : Prop :=
  ∃ n t, run (step outqLen) s (List.replicate n .autoPoll) = some t ∧ t.point = .left ∧
    t.deinit = s.deinit

/-- The call of `flush` is a run of the poll thread, and does what `flush` does. -/
theorem run_flush {fuel : ℕ} {r : List ℤ × ℤ} (hpoint : s.point = .looking)
    (h : RDKafkaPublisher.flush 10 (fun n ↦ outqLen (s.looks + n)) fuel = some r) :
    ∃ n, run (step outqLen) s (List.replicate n .autoPoll) =
      some { s with
        point := .checking
        looks := s.looks + r.1.length + 1
        polls := s.polls ++ r.1 } := by
  induction fuel generalizing s r with
  | zero => cases h
  | succ fuel ih =>
    rw [RDKafkaPublisher.flush, Nat.add_zero] at h
    split at h
    · rename_i hpos
      obtain ⟨r, hr, rfl⟩ := Option.map_eq_some_iff.mp h
      -- a look, and a call of `poll`
      have hnext : run (step outqLen) s (List.replicate 2 .autoPoll) =
          some { s with looks := s.looks + 1, polls := s.polls ++ [10] } := by
        simp [List.replicate, run, step, stepAutoPoll, hpoint, if_pos hpos]
      have hshift : (fun n ↦ outqLen (s.looks + (n + 1))) = fun n ↦ outqLen (s.looks + 1 + n) := by
        funext n
        rw [Nat.add_right_comm, Nat.add_assoc]
      obtain ⟨n, hn⟩ := ih (s := { s with looks := s.looks + 1, polls := s.polls ++ [10] }) hpoint
        (hshift ▸ hr)
      refine ⟨2 + n, ?_⟩
      rw [List.replicate_add, run_append_of_eq_some hnext, hn]
      simp [Nat.add_right_comm, Nat.add_assoc]
    · rename_i hpos
      cases h
      exact ⟨1, by simp [List.replicate, run, step, stepAutoPoll, hpoint, if_neg hpos]⟩

/-- A thread that comes to a point where it leaves, leaves. -/
theorem Leaves.of_run {n : ℕ} (h : run (step outqLen) s (List.replicate n .autoPoll) = some t)
    (hdeinit : t.deinit = s.deinit) (hleaves : Leaves outqLen t) : Leaves outqLen s := by
  obtain ⟨k, u, hu, hpoint, hu'⟩ := hleaves
  refine ⟨n + k, u, ?_, hpoint, hu'.trans hdeinit⟩
  rw [List.replicate_add, run_append_of_eq_some h, hu]

theorem leaves_of_checking (hpoint : s.point = .checking) (hstop : s.stopInnerThread = true) :
    Leaves outqLen s :=
  ⟨1, { s with point := .left }, by simp [List.replicate, run, step, stepAutoPoll, hpoint, hstop],
    rfl, rfl⟩

theorem leaves_of_looking (hpoint : s.point = .looking) (hstop : s.stopInnerThread = true)
    (hempty : ∃ n, s.looks ≤ n ∧ outqLen n ≤ 0) : Leaves outqLen s := by
  obtain ⟨n, hle, hn⟩ := hempty
  have hreturns : RDKafkaPublisher.Returns 10 fun n ↦ outqLen (s.looks + n) :=
    RDKafkaPublisher.returns_iff.mpr ⟨n - s.looks, by rwa [Nat.add_sub_cancel' hle]⟩
  obtain ⟨fuel, r, hflush⟩ := hreturns
  obtain ⟨k, hk⟩ := run_flush hpoint hflush
  exact Leaves.of_run hk rfl (leaves_of_checking rfl hstop)

/-- Wherever the thread is, it leaves once it has to, if the queue is found empty again. -/
theorem leaves (hstop : s.stopInnerThread = true) (hempty : ∃ n, s.looks ≤ n ∧ outqLen n ≤ 0) :
    Leaves outqLen s := by
  cases hpoint : s.point with
  | checking => exact leaves_of_checking hpoint hstop
  | looking => exact leaves_of_looking hpoint hstop hempty
  | sleeping =>
    refine Leaves.of_run (n := 1) (t := { s with point := .looking }) ?_ rfl
      (leaves_of_looking rfl hstop hempty)
    simp [List.replicate, run, step, stepAutoPoll, hpoint]
  | polling =>
    refine Leaves.of_run (n := 1) (t := { s with point := .looking, polls := s.polls ++ [10] }) ?_
      rfl (leaves_of_looking rfl hstop hempty)
    simp [List.replicate, run, step, stepAutoPoll, hpoint]
  | left => exact ⟨0, s, rfl, hpoint, rfl⟩

/-! ## The thread spins -/

/-- The thread is in `flush`, and has looked at the queue `i` times. -/
def Spinning (i : ℕ) (s : AutoPoll) : Prop :=
  (s.point = .looking ∨ s.point = .polling) ∧ i ≤ s.looks

/-- From then on it stays in `flush` if it never finds the queue empty any more. -/
theorem spinning_of_run {i n : ℕ} (hfull : ∀ n, i ≤ n → 0 < outqLen n)
    (h : run (step outqLen) s (List.replicate n .autoPoll) = some t) (hs : Spinning i s) :
    Spinning i t := by
  refine run_invariant_of_mem (P := Spinning i) (fun actor hactor m t hstep hm ↦ ?_) h hs
  obtain rfl := List.eq_of_mem_replicate hactor
  obtain ⟨hpoint | hpoint, hle⟩ := hm
  · simp only [step, stepAutoPoll, hpoint, if_pos (hfull m.looks hle)] at hstep
    cases hstep
    exact ⟨Or.inr rfl, Nat.le_succ_of_le hle⟩
  · simp only [step, stepAutoPoll, hpoint] at hstep
    cases hstep
    exact ⟨Or.inl rfl, hle⟩

/-- As long as nobody stops the thread, it looks at the queue again and again. -/
theorem exists_run_looking (outqLen : ℕ → ℤ) (i : ℕ) :
    ∃ sched s, run (step outqLen) {} sched = some s ∧ s.point = .looking ∧ s.looks = i ∧
      s.stopInnerThread = false ∧ s.deinit = .before := by
  induction i with
  | zero => exact ⟨[.autoPoll, .autoPoll], _, rfl, rfl, rfl, rfl, rfl⟩
  | succ i ih =>
    obtain ⟨sched, s, h, hpoint, rfl, hstop, hdeinit⟩ := ih
    by_cases hpos : outqLen s.looks > 0
    · -- a look, and a call of `poll`
      refine ⟨sched ++ [.autoPoll, .autoPoll],
        { s with looks := s.looks + 1, polls := s.polls ++ [10] }, ?_, hpoint, rfl, hstop, hdeinit⟩
      rw [run_append_of_eq_some h]
      simp [run, step, stepAutoPoll, hpoint, if_pos hpos]
    · -- `flush` returns, and is called again
      refine ⟨sched ++ [.autoPoll, .autoPoll, .autoPoll], { s with looks := s.looks + 1 }, ?_,
        hpoint, rfl, hstop, hdeinit⟩
      rw [run_append_of_eq_some h]
      simp [run, step, stepAutoPoll, hpoint, hstop, if_neg hpos]

/-- **When `join` ends**: when the queue is found empty again and again. -/
theorem joinEnds_iff : JoinEnds outqLen ↔ ∀ i, ∃ n, i ≤ n ∧ outqLen n ≤ 0 := by
  refine ⟨fun hends i ↦ ?_, fun hempty sched s h hjoining ↦ ?_⟩
  · by_contra hnever
    have hfull : ∀ n, i ≤ n → 0 < outqLen n := fun n hn ↦
      Int.not_le.mp fun hle ↦ hnever ⟨n, hn, hle⟩
    obtain ⟨sched, s, h, hpoint, hlooks, -, hdeinit⟩ := exists_run_looking outqLen i
    -- `deinit` sets the flag when the thread is in its last call of `flush`
    have hset : run (step outqLen) {} (sched ++ [.deinit]) =
        some { s with stopInnerThread := true, deinit := .joining } := by
      rw [run_append_of_eq_some h]
      simp [run, step, stepDeinit, hdeinit]
    obtain ⟨n, t, ht⟩ := hends _ _ hset rfl
    obtain ⟨m, hm, hjoin⟩ := run_concat_eq_some.mp ht
    have hspinning : Spinning i m :=
      spinning_of_run hfull hm ⟨Or.inl hpoint, Nat.le_of_eq hlooks.symm⟩
    have hdeinit' : m.deinit = .joining := by
      refine run_invariant_of_mem (P := fun m ↦ m.deinit = .joining)
        (fun actor hactor m t hstep hm ↦ ?_) hm rfl
      obtain rfl := List.eq_of_mem_replicate hactor
      exact (frame_stepAutoPoll hstep).1.trans hm
    simp only [step, stepDeinit, hdeinit', Option.ite_none_right_eq_some] at hjoin
    rcases hspinning.1 with hlooking | hpolling
    · cases hlooking.symm.trans hjoin.1
    · cases hpolling.symm.trans hjoin.1
  · have hstop := stopInnerThread_of_run h (by simp [hjoining])
    obtain ⟨n, t, ht, hleft, hdeinit⟩ := leaves hstop (hempty s.looks)
    refine ⟨n, { t with deinit := .joined }, run_concat_eq_some.mpr ⟨t, ht, ?_⟩⟩
    simp [step, stepDeinit, hdeinit, hjoining, hleft]

/-- **When the waiting for the queue ends**: a call of `flush`, when it finds the queue empty some
time, and the `join` of `deinit`, when the poll thread finds it empty again and again.  The timeout
does not matter. -/
theorem returns_and_joinEnds_iff (timeo : ℤ) (outqLen : ℕ → ℤ) :
    (RDKafkaPublisher.Returns timeo outqLen ↔ ∃ n, outqLen n ≤ 0) ∧
      (JoinEnds outqLen ↔ ∀ i, ∃ n, i ≤ n ∧ outqLen n ≤ 0) :=
  ⟨RDKafkaPublisher.returns_iff, joinEnds_iff⟩

/-- One message that the broker does not acknowledge. -/
theorem not_returns_of_one :
    ¬ RDKafkaPublisher.Returns 10 (fun _ ↦ 1) ∧ ¬ JoinEnds fun _ ↦ 1 := by
  refine ⟨fun hreturns ↦ ?_, fun hends ↦ ?_⟩
  · obtain ⟨n, hn⟩ := RDKafkaPublisher.returns_iff.mp hreturns
    exact absurd hn (by decide)
  · obtain ⟨n, -, hn⟩ := joinEnds_iff.mp hends 0
    exact absurd hn (by decide)

end AutoPoll

/-! ## The queue of a producer

What `outq_len` returns is the length of a queue, which `poll` makes shorter, and others do not
leave alone. -/

namespace Producer

/-- What others do to the queue. -/
inductive QueueEvent
  | produce (message : PublishMessage)
  | acknowledge
  deriving DecidableEq, Repr

/-- The queue after an event. -/
def exec (p : Producer) : QueueEvent → Producer
  | .produce message => (p.produce message).1
  | .acknowledge => p.acknowledge

/-- The queue after `n` calls of `poll`, where others do `others i` before the look number `i`. -/
def polled (others : ℕ → List QueueEvent) (p : Producer) : ℕ → Producer
  | 0 => p
  | n + 1 => ((others n).foldl exec (polled others p n)).poll

/-- What `outq_len` returns. -/
def outqLens (others : ℕ → List QueueEvent) (p : Producer) (n : ℕ) : ℤ :=
  ((others n).foldl exec (polled others p n)).outqLen

variable {others : ℕ → List QueueEvent} {p : Producer} {timeo : ℤ}

/-- `flush` returns if the queue is empty at some look. -/
theorem returns_outqLens_iff :
    RDKafkaPublisher.Returns timeo (outqLens others p) ↔
      ∃ n, ((others n).foldl exec (polled others p n)).outqLen = 0 := by
  rw [RDKafkaPublisher.returns_iff]
  refine exists_congr fun n ↦ ?_
  unfold outqLens
  omega

/-- What `poll` and the others keep, holds of the queue after every call of `poll`. -/
theorem polled_invariant {P : Producer → Prop} (hpoll : ∀ q, P q → P q.poll)
    (hexec : ∀ n, ∀ event ∈ others n, ∀ q, P q → P (exec q event)) (hp : P p) (n : ℕ) :
    P (polled others p n) ∧ P ((others n).foldl exec (polled others p n)) := by
  have hfold : ∀ n q, P q → P ((others n).foldl exec q) := fun n q hq ↦
    List.foldlRecOn (others n) exec hq fun q hq event hevent ↦ hexec n event hevent q hq
  induction n with
  | zero => exact ⟨hp, hfold 0 p hp⟩
  | succ n ih => exact ⟨hpoll _ ih.2, hfold (n + 1) _ (hpoll _ ih.2)⟩

/-- A message waits for its acknowledgement. -/
def Waiting (p : Producer) : Prop := ∃ m ∈ p.outq, m.acknowledged = false

theorem Waiting.produce (h : Waiting p) (message : PublishMessage) :
    Waiting (p.produce message).1 := by
  obtain ⟨m, hm, hack⟩ := h
  unfold Producer.produce
  split
  · exact ⟨m, List.mem_append_left _ hm, hack⟩
  · exact ⟨m, hm, hack⟩

theorem Waiting.poll (h : Waiting p) : Waiting p.poll := by
  obtain ⟨m, hm, hack⟩ := h
  exact ⟨m, List.mem_filter.mpr ⟨hm, by simp [hack]⟩, hack⟩

/-- **A broker that never acknowledges keeps `flush` for ever**, whatever the timeout. -/
theorem not_returns_of_waiting (hp : Waiting p) (hnever : ∀ n, .acknowledge ∉ others n) :
    ¬ RDKafkaPublisher.Returns timeo (outqLens others p) := by
  rw [returns_outqLens_iff]
  rintro ⟨n, hn⟩
  obtain ⟨m, hm, -⟩ : Waiting ((others n).foldl exec (polled others p n)) := by
    refine (polled_invariant (fun q hq ↦ Waiting.poll hq) (fun n event hevent q hq ↦ ?_) hp n).2
    cases event with
    | produce message => exact hq.produce message
    | acknowledge => exact absurd hevent (hnever n)
  exact Nat.ne_of_gt (List.length_pos_of_mem hm) hn

/-- A queue that has room for a message is not empty after one was produced. -/
theorem outqLen_produce_pos (hcapacity : 0 < p.capacity) (message : PublishMessage) :
    0 < (p.produce message).1.outqLen := by
  rcases p.produce_cases message with ⟨-, -, hlen, -⟩ | ⟨hlen, -, heq⟩
  · omega
  · rw [heq, hlen]
    exact hcapacity

@[simp] theorem capacity_exec (p : Producer) (event : QueueEvent) :
    (exec p event).capacity = p.capacity := by
  cases event with
  | produce message =>
    rcases p.produce_cases message with ⟨-, -, -, heq⟩ | ⟨-, -, heq⟩
    · exact heq
    · exact congrArg capacity heq
  | acknowledge => rfl

/-- **Threads that go on publishing keep `flush` for ever**, though the broker acknowledges
everything at once. -/
theorem not_returns_of_refill (message : PublishMessage) (hcapacity : 0 < p.capacity)
    (hothers : ∀ n, others n = [.produce message, .acknowledge]) :
    ¬ RDKafkaPublisher.Returns timeo (outqLens others p) := by
  rw [returns_outqLens_iff]
  rintro ⟨n, hn⟩
  have hroom : 0 < (polled others p n).capacity :=
    (polled_invariant (P := fun q ↦ 0 < q.capacity) (fun q hq ↦ hq)
      (fun n event hevent q hq ↦ by simpa using hq) hcapacity n).1
  have hpos := outqLen_produce_pos hroom message
  simp only [hothers, List.foldl_cons, List.foldl_nil, exec, outqLen_acknowledge] at hn
  omega

theorem outq_poll_acknowledge (p : Producer) : p.acknowledge.poll.outq = [] := by
  simp [acknowledge, poll]

/-- **A broker that catches up lets `flush` return**: it has acknowledged everything at one look,
and nothing was published until the next one. -/
theorem returns_of_acknowledge {n : ℕ} {before : List QueueEvent}
    (hack : others n = before ++ [.acknowledge]) (hquiet : others (n + 1) = []) :
    RDKafkaPublisher.Returns timeo (outqLens others p) := by
  refine returns_outqLens_iff.mpr ⟨n + 1, ?_⟩
  rw [hquiet, List.foldl_nil, polled, hack, List.foldl_append, List.foldl_cons, List.foldl_nil,
    exec, outqLen, outq_poll_acknowledge, List.length_nil]

end Producer

end Ekg
