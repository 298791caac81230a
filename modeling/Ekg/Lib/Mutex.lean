import Mathlib.Data.List.Basic
import Mathlib.Logic.Function.Basic
import Ekg.Lib.Steps

/-!
# Critical sections under one mutex

Threads that share a value of type `γ`, and touch it only inside critical sections of one mutex.
A section is named by a `κ`; inside it a thread has a local state, and makes one step after the
other until it has none left and unlocks.  Nothing is said about how long a section is or what the
steps are.

`State.shared_of_run` is the reason why one writes a mutex: whenever the mutex is free, the shared
value is what the sections make of it that have been entered so far, executed whole and one after
the other in the order in which they got the mutex.  `State.program_of_run` says that this order is
the program order for each of the threads, and `State.exists_run_of_calls` that there is no other
constraint on it.
-/

set_option autoImplicit false

open Steps

namespace Mutex

universe u v w x

/-- What happens inside the critical sections `κ` on a shared value `γ`. -/
structure Sections (γ : Type u) (κ : Type v) where
  /-- What a thread knows inside a section. -/
  Local : Type w
  /-- The start of a section. -/
  enter : κ → Local
  /-- One step inside a section, if there is one left. -/
  next : Local → γ → Option (Local × γ)

variable {ι : Type x} {γ : Type u} {κ : Type v} {sections : Sections.{u, v, w} γ κ}

/-- The steps that are left of a section turn `g` into `g'`, and then there are none. -/
inductive Sections.Finishes (sections : Sections.{u, v, w} γ κ) : sections.Local → γ → γ → Prop
  | done {l : sections.Local} {g : γ} : sections.next l g = none → Finishes sections l g g
  | step {l l' : sections.Local} {g g' g'' : γ} : sections.next l g = some (l', g') →
      Finishes sections l' g' g'' → Finishes sections l g g''

theorem Sections.Finishes.eq_of_next_eq_none {l : sections.Local} {g g' : γ}
    (h : sections.Finishes l g g') (hnext : sections.next l g = none) : g' = g := by
  cases h with
  | done _ => rfl
  | step hstep _ => cases hnext.symm.trans hstep

theorem Sections.Finishes.of_next {l l' : sections.Local} {g g' g'' : γ}
    (h : sections.Finishes l g g'') (hnext : sections.next l g = some (l', g')) :
    sections.Finishes l' g' g'' := by
  cases h with
  | done hdone => cases hdone.symm.trans hnext
  | step hstep hrest =>
    cases hstep.symm.trans hnext
    exact hrest

/-- A thread: the sections it has still to enter, and how far it is in the one it is in. -/
structure Thread (sections : Sections.{u, v, w} γ κ) where
  program : List κ
  inside : Option sections.Local

/-- The threads `ι`, and what they share. -/
structure State (ι : Type x) (sections : Sections.{u, v, w} γ κ) where
  shared : γ
  /-- The thread that holds the mutex. -/
  owner : Option ι
  threads : ι → Thread sections
  /-- The sections entered so far, oldest first. -/
  entered : List (ι × κ)

namespace State

variable [DecidableEq ι] {programs : ι → List κ} {init : γ} {s t : State ι sections} {i : ι}
  {sched : List ι}

/-- Before any thread has entered a section. -/
def start (programs : ι → List κ) (init : γ) : State ι sections where
  shared := init
  owner := none
  threads i := ⟨programs i, none⟩
  entered := []

/-- Thread `i` makes a step: it locks, or works inside its section, or unlocks. -/
def step (s : State ι sections) (i : ι) : Option (State ι sections) :=
  match s.threads i with
  | ⟨program, some l⟩ =>
    match sections.next l s.shared with
    | some (l', g) =>
      some { s with
        shared := g
        threads := Function.update s.threads i ⟨program, some l'⟩ }
    | none =>
      some { s with
        owner := none
        threads := Function.update s.threads i ⟨program, none⟩ }
  | ⟨k :: program, none⟩ =>
    if s.owner.isNone then
      some { s with
        owner := some i
        threads := Function.update s.threads i ⟨program, some (sections.enter k)⟩
        entered := s.entered ++ [(i, k)] }
    else none
  | ⟨[], none⟩ => none

/-- What a step does: it enters a section, makes a step in one, or leaves it. -/
theorem step_cases (h : step s i = some t) :
    (∃ k program, s.threads i = ⟨k :: program, none⟩ ∧ s.owner = none ∧
      t = { s with
        owner := some i
        threads := Function.update s.threads i ⟨program, some (sections.enter k)⟩
        entered := s.entered ++ [(i, k)] }) ∨
    (∃ program l l' g, s.threads i = ⟨program, some l⟩ ∧
      sections.next l s.shared = some (l', g) ∧
      t = { s with
        shared := g
        threads := Function.update s.threads i ⟨program, some l'⟩ }) ∨
    ∃ program l, s.threads i = ⟨program, some l⟩ ∧ sections.next l s.shared = none ∧
      t = { s with
        owner := none
        threads := Function.update s.threads i ⟨program, none⟩ } := by
  rw [step] at h
  split at h
  · rename_i program l hthread
    split at h
    · rename_i l' g hnext
      exact Or.inr (Or.inl ⟨program, l, l', g, hthread, hnext, (Option.some_inj.mp h).symm⟩)
    · rename_i hnext
      exact Or.inr (Or.inr ⟨program, l, hthread, hnext, (Option.some_inj.mp h).symm⟩)
  · rename_i k program hthread
    split at h
    · rename_i hfree
      exact Or.inl ⟨k, program, hthread, Option.isNone_iff_eq_none.mp hfree,
        (Option.some_inj.mp h).symm⟩
    · cases h
  · cases h

variable (exec : κ → γ → γ)

/-- The sections of a log, executed whole and one after the other. -/
def executed (init : γ) (entered : List (ι × κ)) : γ :=
  entered.foldl (fun g entry ↦ exec entry.2 g) init

omit [DecidableEq ι] in
theorem executed_concat (entered : List (ι × κ)) (i : ι) (k : κ) :
    executed exec init (entered ++ [(i, k)]) = exec k (executed exec init entered) := by
  rw [executed, List.foldl_append]
  rfl

/-- The sections of one thread in a sequence of sections. -/
def programOf (calls : List (ι × κ)) (i : ι) : List κ :=
  (calls.filter fun entry ↦ entry.1 = i).map Prod.snd

/-- The sections that one thread has entered. -/
def enteredBy (s : State ι sections) (i : ι) : List κ := programOf s.entered i

/-- A step of one thread leaves the others where they are. -/
theorem threads_step_of_ne (h : step s i = some t) {j : ι} (hji : j ≠ i) :
    t.threads j = s.threads j := by
  obtain ⟨k, program, -, -, rfl⟩ | ⟨program, l, l', g, -, -, rfl⟩ | ⟨program, l, -, -, rfl⟩ :=
    step_cases h
  all_goals exact Function.update_of_ne hji _ _

/-- What a thread has entered, and what it has still to enter, is its program. -/
theorem program_step (h : step s i = some t) (j : ι) :
    t.enteredBy j ++ (t.threads j).program = s.enteredBy j ++ (s.threads j).program := by
  by_cases hji : j = i
  · subst hji
    obtain ⟨k, program, hthread, -, rfl⟩ | ⟨program, l, l', g, hthread, -, rfl⟩ |
      ⟨program, l, hthread, -, rfl⟩ := step_cases h
    · simp [enteredBy, programOf, hthread]
    · simp [enteredBy, programOf, hthread]
    · simp [enteredBy, programOf, hthread]
  · rw [threads_step_of_ne h hji]
    obtain ⟨k, program, -, -, rfl⟩ | ⟨program, l, l', g, -, -, rfl⟩ | ⟨program, l, -, -, rfl⟩ :=
      step_cases h
    · simp [enteredBy, programOf, Ne.symm hji]
    · rfl
    · rfl

/-- What is true at every point of a run: a thread is in a section only while it holds the mutex,
and what is left of that section ends where its execution in one go would have. -/
structure Inv (exec : κ → γ → γ) (init : γ) (s : State ι sections) : Prop where
  outside : ∀ i, s.owner ≠ some i → (s.threads i).inside = none
  free : s.owner = none → s.shared = executed exec init s.entered
  held : ∀ i, s.owner = some i → ∃ l, (s.threads i).inside = some l ∧
    sections.Finishes l s.shared (executed exec init s.entered)

variable {exec}

omit [DecidableEq ι] in
theorem inv_start (programs : ι → List κ) (init : γ) :
    Inv exec init (start programs init : State ι sections) :=
  ⟨fun _ _ ↦ rfl, fun _ ↦ rfl, fun _ h ↦ by cases h⟩

/-- Whoever is inside a section holds the mutex, and its section can be finished. -/
theorem Inv.of_inside (h : Inv exec init s) {l : sections.Local}
    (hl : (s.threads i).inside = some l) :
    s.owner = some i ∧ sections.Finishes l s.shared (executed exec init s.entered) := by
  have howner : s.owner = some i := by
    by_contra hne
    cases hl.symm.trans (h.outside i hne)
  obtain ⟨m, hm, hfinishes⟩ := h.held i howner
  obtain rfl : l = m := Option.some_inj.mp (hl.symm.trans hm)
  exact ⟨howner, hfinishes⟩

theorem Inv.step (hexec : ∀ k g, sections.Finishes (sections.enter k) g (exec k g))
    (h : Inv exec init s) (hstep : step s i = some t) : Inv exec init t := by
  have hothers : ∀ j, j ≠ i → s.owner ≠ some j → (t.threads j).inside = none := by
    intro j hji hj
    rw [threads_step_of_ne hstep hji]
    exact h.outside j hj
  obtain ⟨k, program, -, hfree, rfl⟩ | ⟨program, l, l', g, hthread, hnext, rfl⟩ |
    ⟨program, l, hthread, hnext, rfl⟩ := step_cases hstep
  · -- the section that is entered runs on what all the earlier ones have left
    refine ⟨fun j hj ↦ ?_, fun hnone ↦ (by cases hnone), fun j hj ↦ ?_⟩
    · exact hothers j (fun hji ↦ hj (hji ▸ rfl)) (by simp [hfree])
    · obtain rfl : i = j := Option.some_inj.mp hj
      refine ⟨sections.enter k, by simp, ?_⟩
      rw [executed_concat, ← h.free hfree]
      exact hexec k s.shared
  · obtain ⟨howner, hfinishes⟩ := h.of_inside (congrArg Thread.inside hthread)
    refine ⟨fun j hj ↦ ?_, fun hnone ↦ ?_, fun j hj ↦ ?_⟩
    · exact hothers j (fun hji ↦ hj (hji ▸ howner)) hj
    · cases howner.symm.trans hnone
    · obtain rfl : i = j := Option.some_inj.mp (howner.symm.trans hj)
      exact ⟨l', by simp, hfinishes.of_next hnext⟩
  · obtain ⟨howner, hfinishes⟩ := h.of_inside (congrArg Thread.inside hthread)
    refine ⟨fun j _ ↦ ?_, fun _ ↦ ?_, fun j hj ↦ by cases hj⟩
    · by_cases hji : j = i
      · subst hji
        simp
      · exact hothers j hji fun hj ↦ hji (Option.some_inj.mp (hj.symm.trans howner))
    · exact (hfinishes.eq_of_next_eq_none hnext).symm

/-- **A mutex makes sections atomic**: while it is free, the shared value is the one that the
sections leave when they are executed one after the other. -/
theorem shared_of_run (hexec : ∀ k g, sections.Finishes (sections.enter k) g (exec k g))
    (h : run step (start programs init : State ι sections) sched = some s)
    (hfree : s.owner = none) : s.shared = executed exec init s.entered :=
  (run_invariant (fun _ _ _ hstep hinv ↦ Inv.step hexec hinv hstep) h
    (inv_start programs init)).free hfree

/-- Each thread enters its sections in the order of its program. -/
theorem program_of_run (h : run step (start programs init : State ι sections) sched = some s)
    (i : ι) : s.enteredBy i <+: programs i :=
  ⟨(s.threads i).program, run_invariant (P := fun s ↦
    s.enteredBy i ++ (s.threads i).program = programs i)
    (fun _ _ _ hstep hs ↦ (program_step hstep i).trans hs) h rfl⟩

/-! ## Every order is possible -/

/-- A thread that is inside a section, and is left alone, gets out of it. -/
theorem exists_run_of_inside {program : List κ} {l : sections.Local} {g g' : γ}
    (hfinishes : sections.Finishes l g g') {s : State ι sections} (hshared : s.shared = g)
    (hthread : s.threads i = ⟨program, some l⟩) :
    ∃ sched, run step s sched = some
      { s with
        shared := g'
        owner := none
        threads := Function.update s.threads i ⟨program, none⟩ } := by
  induction hfinishes generalizing s with
  | @done l g hnext =>
    refine ⟨[i], ?_⟩
    subst hshared
    rw [run_cons, step]
    simp only [hthread, hnext]
    rfl
  | @step l l' g g' g'' hnext _ ih =>
    subst hshared
    have hstep : step s i = some
        { s with
          shared := g'
          threads := Function.update s.threads i ⟨program, some l'⟩ } := by
      rw [step]
      simp only [hthread, hnext]
    obtain ⟨sched, hsched⟩ := ih (s :=
      { s with
        shared := g'
        threads := Function.update s.threads i ⟨program, some l'⟩ })
      rfl (Function.update_self i _ s.threads)
    refine ⟨i :: sched, run_cons_eq_some.mpr ⟨_, hstep, ?_⟩⟩
    rw [hsched]
    simp

/-- **The mutex excludes no order**: whatever sections are wanted of whatever threads, some run
enters them in this order. -/
theorem exists_run_of_calls (hexec : ∀ k g, sections.Finishes (sections.enter k) g (exec k g))
    (calls : List (ι × κ)) {s : State ι sections} (hfree : s.owner = none)
    (hthreads : ∀ i, s.threads i = ⟨programOf calls i, none⟩) :
    ∃ sched t, run step s sched = some t ∧ t.owner = none ∧ t.entered = s.entered ++ calls := by
  induction calls generalizing s with
  | nil => exact ⟨[], s, rfl, hfree, (List.append_nil _).symm⟩
  | cons call calls ih =>
    obtain ⟨i, k⟩ := call
    have hprogram : s.threads i = ⟨k :: programOf calls i, none⟩ := by
      rw [hthreads i]
      simp [programOf]
    have hstep : step s i = some
        { s with
          owner := some i
          threads := Function.update s.threads i ⟨programOf calls i, some (sections.enter k)⟩
          entered := s.entered ++ [(i, k)] } := by
      rw [step]
      simp only [hprogram, hfree]
      rfl
    obtain ⟨sched₁, h₁⟩ := exists_run_of_inside (hexec k s.shared) (s :=
      { s with
        owner := some i
        threads := Function.update s.threads i ⟨programOf calls i, some (sections.enter k)⟩
        entered := s.entered ++ [(i, k)] }) rfl (Function.update_self i _ s.threads)
    obtain ⟨sched₂, t, h₂, hfree₂, hentered⟩ := ih (s :=
      { s with
        shared := exec k s.shared
        owner := none
        threads := Function.update (Function.update s.threads i
          ⟨programOf calls i, some (sections.enter k)⟩) i ⟨programOf calls i, none⟩
        entered := s.entered ++ [(i, k)] }) rfl fun j ↦ by
      by_cases hji : j = i
      · subst hji
        simp
      · simp [hji, hthreads j, programOf, Ne.symm hji]
    refine ⟨i :: (sched₁ ++ sched₂), t, ?_, hfree₂, by rw [hentered]; simp⟩
    exact run_cons_eq_some.mpr ⟨_, hstep, run_append_eq_some.mpr ⟨_, h₁, h₂⟩⟩

end State

/-! ## Owners and program points

Where the threads are given by program points, and a mutex by its owner, the two have to agree: the
owner is the thread that is at a point where it holds the mutex. -/

section Owned

variable {θ : Type u} {owner owner' : Option θ} {holds holds' : θ → Prop} {t : θ}

/-- The owner is the one thread that holds the mutex. -/
def OwnedBy (owner : Option θ) (holds : θ → Prop) : Prop := ∀ t, owner = some t ↔ holds t

theorem ownedBy_none_iff : OwnedBy none holds ↔ ∀ t, ¬ holds t := by
  simp [OwnedBy]

/-- Only one thread is where the mutex is held. -/
theorem OwnedBy.eq {u : θ} (h : OwnedBy owner holds) (ht : holds t) (hu : holds u) : t = u :=
  Option.some_inj.mp (((h t).mpr ht).symm.trans ((h u).mpr hu))

/-- A thread that leaves the mutex alone, locks it while it is free, or unlocks it while holding it,
keeps the two in agreement. -/
theorem OwnedBy.of_step (h : OwnedBy owner holds) (hother : ∀ u, u ≠ t → (holds' u ↔ holds u))
    (hstep : (owner' = owner ∧ (holds' t ↔ holds t)) ∨ (owner = none ∧ owner' = some t ∧ holds' t) ∨
      (holds t ∧ owner' = none ∧ ¬ holds' t)) :
    OwnedBy owner' holds' := by
  intro u
  by_cases hu : u = t
  · subst hu
    rcases hstep with ⟨rfl, hholds⟩ | ⟨-, rfl, hholds⟩ | ⟨-, rfl, hholds⟩
    · exact (h u).trans hholds.symm
    · simpa using hholds
    · simpa using hholds
  · rw [hother u hu, ← h u]
    rcases hstep with ⟨rfl, -⟩ | ⟨rfl, rfl, -⟩ | ⟨hholds, rfl, -⟩
    · rfl
    · simpa using Ne.symm hu
    · rw [(h t).mpr hholds]
      simpa using Ne.symm hu

end Owned

end Mutex
