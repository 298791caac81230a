import Mathlib.Data.List.Induction
import Mathlib.Data.List.Infix

/-!
# Runs of a partial step function

A concurrent system is given here by a state type, a type of actions and a function
`step : σ → α → Option σ` that says what an action does, or that it is not enabled.  A *schedule*
is a list of actions, and `run step s acts` executes it, failing as soon as an action is not
enabled.  Quantifying over all schedules is quantifying over all interleavings.

`run_invariant` is the induction rule: what every enabled step preserves, every run preserves.
`run_invariant_of_mem` is the same rule for a part of a run in which only some actions occur, which
is how one says that the steps of the others leave something alone.  `length_add_le_of_run` bounds a
run by a measure, and `exists_run_stuck` continues one to its end.
-/

set_option autoImplicit false

namespace Steps

universe u v

variable {σ : Type u} {α : Type v} {step : σ → α → Option σ} {s t m : σ} {a : α} {as bs : List α}

/-- Execute the schedule `acts` from `s`. -/
def run (step : σ → α → Option σ) (s : σ) (acts : List α) : Option σ :=
  match acts with
  | [] => some s
  | a :: rest => (step s a).bind fun t ↦ run step t rest

@[simp] theorem run_nil : run step s [] = some s := rfl

theorem run_cons : run step s (a :: as) = (step s a).bind fun t ↦ run step t as := rfl

theorem run_cons_eq_some :
    run step s (a :: as) = some t ↔ ∃ m, step s a = some m ∧ run step m as = some t := by
  rw [run_cons, Option.bind_eq_some_iff]

theorem run_append :
    run step s (as ++ bs) = (run step s as).bind fun t ↦ run step t bs := by
  induction as generalizing s with
  | nil => rfl
  | cons a as ih => simp only [List.cons_append, run_cons, ih, Option.bind_assoc]

theorem run_append_eq_some :
    run step s (as ++ bs) = some t ↔ ∃ m, run step s as = some m ∧ run step m bs = some t := by
  rw [run_append, Option.bind_eq_some_iff]

theorem run_concat_eq_some :
    run step s (as ++ [a]) = some t ↔ ∃ m, run step s as = some m ∧ step m a = some t := by
  rw [run_append_eq_some]
  simp only [run_cons_eq_some, run_nil, Option.some_inj, exists_eq_right]

theorem run_append_of_eq_some (h : run step s as = some m) :
    run step s (as ++ bs) = run step m bs := by
  rw [run_append, h, Option.bind_some]

/-- A run of a step function that makes fewer steps. -/
theorem run_mono {step' : σ → α → Option σ}
    (hsub : ∀ s a t, step' s a = some t → step s a = some t) (h : run step' s as = some t) :
    run step s as = some t := by
  induction as generalizing s with
  | nil => exact h
  | cons a as ih =>
    obtain ⟨m, hm, hrest⟩ := run_cons_eq_some.mp h
    exact run_cons_eq_some.mpr ⟨m, hsub s a m hm, ih hrest⟩

/-- The invariant rule for a run all of whose steps meet a condition on the state before. -/
theorem run_invariant_of_meets {P : σ → Prop} {C : σ → α → Prop}
    (hstep : ∀ s a t, step s a = some t → C s a → P s → P t)
    (h : run step s as = some t)
    (hmeets : ∀ done a rest m, as = done ++ a :: rest → run step s done = some m → C m a)
    (hs : P s) : P t := by
  induction as generalizing s with
  | nil => exact Option.some_inj.mp h ▸ hs
  | cons a as ih =>
    obtain ⟨m, hm, hrest⟩ := run_cons_eq_some.mp h
    refine ih hrest (fun done b rest n has hn ↦ ?_) (hstep s a m hm (hmeets [] a as s rfl rfl) hs)
    exact hmeets (a :: done) b rest n (by rw [has, List.cons_append])
      (run_cons_eq_some.mpr ⟨m, hm, hn⟩)

/-- The invariant rule for a schedule with actions of some kind only. -/
theorem run_invariant_of_mem {P : σ → Prop}
    (hstep : ∀ a ∈ as, ∀ s t, step s a = some t → P s → P t)
    (h : run step s as = some t) (hs : P s) : P t := by
  refine run_invariant_of_meets (C := fun _ a ↦ a ∈ as) (fun s a t hst ha ↦ hstep a ha s t hst) h
    (fun done a rest m has _ ↦ ?_) hs
  rw [has]
  exact List.mem_append_right done List.mem_cons_self

/-- **The invariant rule.** -/
theorem run_invariant {P : σ → Prop}
    (hstep : ∀ s a t, step s a = some t → P s → P t)
    (h : run step s as = some t) (hs : P s) : P t :=
  run_invariant_of_mem (fun a _ s t ↦ hstep s a t) h hs

/-- The invariant rule for what relates a schedule to the state it leads to. -/
theorem run_induction {P : List α → σ → Prop} (hnil : P [] s)
    (hstep : ∀ done a m t, run step s done = some m → P done m → step m a = some t →
      P (done ++ [a]) t)
    (h : run step s as = some t) : P as t := by
  induction as using List.reverseRecOn generalizing t with
  | nil => exact Option.some_inj.mp h ▸ hnil
  | append_singleton as a ih =>
    obtain ⟨m, hm, hstep'⟩ := run_concat_eq_some.mp h
    exact hstep as a m t hm (ih hm) hstep'

/-! ## Histories -/

/-- `P` holds of every action of a history, with the history before it. -/
def Throughout (P : List α → α → Prop) (as : List α) : Prop :=
  ∀ done a rest, as = done ++ a :: rest → P done a

@[simp] theorem throughout_nil {P : List α → α → Prop} : Throughout P [] := by
  intro done a rest h
  simp at h

theorem throughout_concat {P : List α → α → Prop} :
    Throughout P (as ++ [a]) ↔ Throughout P as ∧ P as a := by
  refine ⟨fun h ↦ ⟨fun done b rest heq ↦ h done b (rest ++ [a]) (by simp [heq]), h as a [] rfl⟩,
    fun ⟨hold, hnew⟩ done b rest heq ↦ ?_⟩
  rcases List.eq_nil_or_concat' rest with rfl | ⟨rest, c, rfl⟩
  · obtain ⟨rfl, hb⟩ := List.append_inj' heq rfl
    exact (List.singleton_inj.mp hb) ▸ hnew
  · have heq' : as ++ [a] = (done ++ b :: rest) ++ [c] := by simpa using heq
    exact hold done b rest (List.append_inj' heq' rfl).1

/-! ## Progress

What makes a measure smaller cannot go on for ever; so a run of such actions can be continued until
none of them is enabled. -/

section Progress

variable {P : σ → Prop} {A : α → Prop} {μ : σ → ℕ}

/-- None of the actions of kind `A` is enabled. -/
def Stuck (step : σ → α → Option σ) (A : α → Prop) (s : σ) : Prop := ∀ a, A a → step s a = none

/-- A run is no longer than the measure of its start. -/
theorem length_add_le_of_run
    (hstep : ∀ s a t, P s → A a → step s a = some t → P t ∧ μ t < μ s)
    (h : run step s as = some t) (hA : ∀ a ∈ as, A a) (hs : P s) :
    P t ∧ as.length + μ t ≤ μ s := by
  induction as generalizing s with
  | nil =>
    cases h
    exact ⟨hs, (Nat.zero_add _).le⟩
  | cons a as ih =>
    obtain ⟨m, hm, hrest⟩ := run_cons_eq_some.mp h
    obtain ⟨hPm, hlt⟩ := hstep s a m hs (hA a List.mem_cons_self) hm
    obtain ⟨hPt, hle⟩ := ih hrest (fun b hb ↦ hA b (List.mem_cons_of_mem a hb)) hPm
    refine ⟨hPt, ?_⟩
    rw [List.length_cons]
    omega

/-- **A run can be continued until it is stuck.** -/
theorem exists_run_stuck
    (hstep : ∀ s a t, P s → A a → step s a = some t → P t ∧ μ t < μ s) (hs : P s) :
    ∃ as t, (∀ a ∈ as, A a) ∧ run step s as = some t ∧ Stuck step A t := by
  induction hμ : μ s using Nat.strongRecOn generalizing s with
  | ind n ih =>
    by_cases hstuck : Stuck step A s
    · exact ⟨[], s, fun _ ha ↦ absurd ha List.not_mem_nil, rfl, hstuck⟩
    · simp only [Stuck, not_forall] at hstuck
      obtain ⟨a, ha, hne⟩ := hstuck
      obtain ⟨m, hm⟩ := Option.ne_none_iff_exists'.mp hne
      obtain ⟨hPm, hlt⟩ := hstep s a m hs ha hm
      obtain ⟨as, t, hA, hrun, ht⟩ := ih (μ m) (hμ ▸ hlt) hPm rfl
      refine ⟨a :: as, t, ?_, run_cons_eq_some.mpr ⟨m, hm, hrun⟩, ht⟩
      rintro b (_ | ⟨_, hb⟩)
      · exact ha
      · exact hA b hb

end Progress

/-! ## Components -/

section Each

universe w

variable {ι : Type w} [DecidableEq ι] {ss tt : ι → σ} {acts : List (ι × α)}

/-- The step function of a family of components that share nothing. -/
def each (step : σ → α → Option σ) (ss : ι → σ) (act : ι × α) : Option (ι → σ) :=
  (step (ss act.1) act.2).map (Function.update ss act.1)

/-- The actions of one component. -/
def actsOf (i : ι) (acts : List (ι × α)) : List α :=
  (acts.filter fun act ↦ act.1 = i).map Prod.snd

/-- **Every component makes a run of its own.** -/
theorem run_each (h : run (each step) ss acts = some tt) (i : ι) :
    run step (ss i) (actsOf i acts) = some (tt i) := by
  induction acts generalizing ss with
  | nil => exact congrArg some (congrFun (Option.some_inj.mp h) i)
  | cons act rest ih =>
    obtain ⟨mm, hstep, hrest⟩ := run_cons_eq_some.mp h
    obtain ⟨m, hm, rfl⟩ := Option.map_eq_some_iff.mp hstep
    have hrun := ih hrest
    by_cases hi : act.1 = i
    · subst hi
      rw [actsOf, List.filter_cons_of_pos (by simp), List.map_cons, run_cons_eq_some]
      exact ⟨m, hm, by simpa [actsOf] using hrun⟩
    · rw [actsOf, List.filter_cons_of_neg (by simpa using hi)]
      rwa [Function.update_of_ne (Ne.symm hi)] at hrun

end Each

/-! ## Logs

A state may keep a log that every step extends.  A run from an empty log then has, for each entry
of its log, the step that made the entry. -/

section Log

universe w

variable {ε : Type w} (log : σ → List ε)

theorem log_prefix_of_run (hlog : ∀ s a t, step s a = some t → log s <+: log t)
    (h : run step s as = some t) : log s <+: log t :=
  run_invariant (P := fun m ↦ log s <+: log m) (fun m a m' hstep hm ↦ hm.trans (hlog m a m' hstep))
    h (List.prefix_refl _)

/-- **Every entry of the log was made by some step**, which has made the entries `new` before it. -/
theorem exists_step_of_log {before after : List ε} {e : ε}
    (hlog : ∀ s a t, step s a = some t → log s <+: log t)
    (h : run step s as = some t) (hs : log s = []) (hsplit : log t = before ++ e :: after) :
    ∃ done a rest m m' new after', as = done ++ a :: rest ∧ run step s done = some m ∧
      step m a = some m' ∧ before = log m ++ new ∧ log m' = before ++ e :: after' := by
  induction as using List.reverseRecOn generalizing t after with
  | nil =>
    cases h
    rw [hs] at hsplit
    simp at hsplit
  | append_singleton as a ih =>
    obtain ⟨m, hm, hstep⟩ := run_concat_eq_some.mp h
    have hmt := hlog m a t hstep
    have hbefore : before <+: log t := ⟨e :: after, hsplit.symm⟩
    rcases Nat.lt_or_ge before.length (log m).length with hlt | hge
    · -- the entry is an old one
      have hbefore' : before ++ [e] <+: log t := ⟨after, by rw [hsplit]; simp⟩
      have hold : before ++ [e] <+: log m :=
        List.prefix_of_prefix_length_le hbefore' hmt (by simpa using Nat.succ_le_of_lt hlt)
      obtain ⟨after', hafter'⟩ := hold
      have hsplit' : log m = before ++ e :: after' := by rw [← hafter']; simp
      obtain ⟨done, b, rest, n, n', new, after'', hacts, hn, hstep', hnew, hlog'⟩ :=
        ih hm hsplit'
      exact ⟨done, b, rest ++ [a], n, n', new, after'', by rw [hacts]; simp, hn, hstep', hnew,
        hlog'⟩
    · obtain ⟨new, hnew⟩ := List.prefix_of_prefix_length_le hmt hbefore hge
      exact ⟨as, a, [], m, t, new, after, rfl, hm, hstep, hnew.symm, hsplit⟩

end Log

end Steps
