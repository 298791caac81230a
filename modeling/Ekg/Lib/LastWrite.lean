import Mathlib.Data.List.Basic
import Mathlib.Data.List.Infix

/-!
# Last-writer-wins histories

A history is a list of operations, oldest first, and every operation addresses one key.  A store
is *last-writer-wins* when what it holds at a key depends only on the last operation of the
history that addressed the key, and on what it held there initially if there was none.

`lastOn key k cs` is that operation.  The two rules a client uses are

* `Writes.obs_foldl`: if one step of a store sets what is observed at the key it addresses and
  leaves every other key alone, then a whole history leaves the last value written at every key;
* `Writes.obs_replay`: replaying a prefix of a batch before the batch is invisible at every key.
  This is the reason a last-writer-wins store tolerates redelivery.

`lastOn_perm` says when reordering a history is invisible too: when all the operations on a key
write the same value.
-/

set_option autoImplicit false

namespace LastWrite

universe u v w x

variable {α : Type u} {κ : Type v} {ν : Type w} [DecidableEq κ]

/-- The last operation of the history `cs` that addresses the key `k`. -/
def lastOn (key : α → κ) (k : κ) (cs : List α) : Option α :=
  (cs.filter fun c ↦ key c = k).getLast?

variable {key : α → κ} {k : κ} {c : α} {as bs cs : List α}

@[simp] theorem lastOn_nil : lastOn key k ([] : List α) = none := rfl

theorem lastOn_append :
    lastOn key k (as ++ bs) = (lastOn key k bs).or (lastOn key k as) := by
  rw [lastOn, List.filter_append, List.getLast?_append]
  rfl

theorem lastOn_concat (cs : List α) (c : α) :
    lastOn key k (cs ++ [c]) = if key c = k then some c else lastOn key k cs := by
  rw [lastOn_append]
  by_cases h : key c = k <;> simp [lastOn, h]

theorem lastOn_eq_none_iff : lastOn key k cs = none ↔ ∀ c ∈ cs, key c ≠ k := by
  rw [lastOn, List.getLast?_eq_none_iff, List.filter_eq_nil_iff]
  simp

theorem mem_of_lastOn (h : lastOn key k cs = some c) : c ∈ cs ∧ key c = k := by
  have hc := List.mem_filter.mp (List.mem_of_getLast? h)
  exact ⟨hc.1, by simpa using hc.2⟩

theorem lastOn_isSome_of_mem (hc : c ∈ cs) (hk : key c = k) : (lastOn key k cs).isSome := by
  rw [Option.isSome_iff_ne_none, Ne, lastOn_eq_none_iff]
  exact fun h ↦ h c hc hk

/-- An operation on a key with no later operation on it is the last one on it. -/
theorem lastOn_append_cons (hk : key c = k) (hbs : ∀ d ∈ bs, key d ≠ k) :
    lastOn key k (as ++ c :: bs) = some c := by
  have hb : lastOn key k bs = none := lastOn_eq_none_iff.mpr hbs
  rw [show as ++ c :: bs = (as ++ [c]) ++ bs by simp, lastOn_append, hb, lastOn_concat, if_pos hk]
  rfl

/-- The last operation on a key, and the history around it. -/
theorem lastOn_eq_some_iff :
    lastOn key k cs = some c ↔
      ∃ as bs, cs = as ++ c :: bs ∧ key c = k ∧ ∀ d ∈ bs, key d ≠ k := by
  constructor
  · intro h
    induction cs using List.reverseRecOn with
    | nil => cases h
    | append_singleton cs d ih =>
      rw [lastOn_concat] at h
      split at h
      · rename_i hd
        cases h
        exact ⟨cs, [], rfl, hd, by simp⟩
      · rename_i hd
        obtain ⟨as, bs, rfl, hk, hbs⟩ := ih h
        refine ⟨as, bs ++ [d], by simp, hk, fun e he ↦ ?_⟩
        rcases List.mem_append.mp he with he | he
        · exact hbs e he
        · exact List.mem_singleton.mp he ▸ hd
  · rintro ⟨as, bs, rfl, hk, hbs⟩
    exact lastOn_append_cons hk hbs

/-- **Replaying a prefix is invisible.**  Whatever the prefix did to a key, the batch does again
if it touches the key at all. -/
theorem lastOn_replay (h : as <+: bs) (k : κ) :
    lastOn key k (as ++ bs) = lastOn key k bs := by
  obtain ⟨rest, rfl⟩ := h
  rw [lastOn_append]
  cases hb : lastOn key k (as ++ rest) with
  | some c => rfl
  | none =>
    have has : lastOn key k as = none := by
      rw [lastOn_eq_none_iff] at hb ⊢
      exact fun c hc ↦ hb c (List.mem_append_left _ hc)
    rw [has, Option.none_or]

/-- **Reordering is invisible where there is nothing to disagree about**: when all the operations
on a key write the same value, every reordering of the history ends with that value. -/
theorem lastOn_perm {val : α → ν} (hperm : as.Perm bs)
    (hval : ∀ c ∈ as, ∀ d ∈ as, key c = k → key d = k → val c = val d) :
    (lastOn key k as).map val = (lastOn key k bs).map val := by
  cases ha : lastOn key k as with
  | none =>
    have hb : lastOn key k bs = none := by
      rw [lastOn_eq_none_iff] at ha ⊢
      exact fun c hc ↦ ha c (hperm.mem_iff.mpr hc)
    rw [hb]
  | some c =>
    obtain ⟨hc, hck⟩ := mem_of_lastOn ha
    obtain ⟨d, hd⟩ := Option.isSome_iff_exists.mp
      (lastOn_isSome_of_mem (hperm.mem_iff.mp hc) hck)
    obtain ⟨hdb, hdk⟩ := mem_of_lastOn hd
    rw [hd, Option.map_some, Option.map_some, hval c hc d (hperm.mem_iff.mpr hdb) hck hdk]

/-! ## How a history ends -/

section EndsWith

variable {P : α → Bool}

/-- The history has an operation on the key `k`, and the last one is a `P`. -/
def EndsWith (key : α → κ) (k : κ) (P : α → Bool) (cs : List α) : Prop :=
  ∃ c, lastOn key k cs = some c ∧ P c = true

theorem not_endsWith_nil : ¬ EndsWith key k P [] := fun ⟨_, hc, _⟩ ↦ by cases hc

theorem endsWith_append_of_ne (h : ∀ c ∈ bs, key c ≠ k) :
    EndsWith key k P (as ++ bs) ↔ EndsWith key k P as := by
  rw [EndsWith, lastOn_append, lastOn_eq_none_iff.mpr h, Option.none_or]
  rfl

theorem endsWith_concat (cs : List α) (c : α) :
    EndsWith key k P (cs ++ [c]) ↔ if key c = k then P c = true else EndsWith key k P cs := by
  rw [EndsWith, lastOn_concat]
  split
  · simp
  · rfl

/-- After a `P`, a history ends with a `P` as long as every operation on the key is one. -/
theorem endsWith_append_cons (hk : key c = k) (hc : P c = true)
    (hbs : ∀ d ∈ bs, key d = k → P d = true) : EndsWith key k P (as ++ c :: bs) := by
  rw [List.append_cons, EndsWith, lastOn_append, lastOn_concat, if_pos hk]
  cases hb : lastOn key k bs with
  | none => exact ⟨c, rfl, hc⟩
  | some d =>
    obtain ⟨hd, hdk⟩ := mem_of_lastOn hb
    exact ⟨d, rfl, hbs d hd hdk⟩

/-- Where the end of a history comes from. -/
theorem EndsWith.of_append (h : EndsWith key k P (as ++ bs)) :
    (∃ c ∈ bs, key c = k ∧ P c = true) ∨ ((∀ c ∈ bs, key c ≠ k) ∧ EndsWith key k P as) := by
  obtain ⟨c, hc, hP⟩ := h
  rw [lastOn_append] at hc
  cases hb : lastOn key k bs with
  | some d =>
    rw [hb, Option.some_or, Option.some_inj] at hc
    obtain ⟨hd, hdk⟩ := mem_of_lastOn hb
    exact Or.inl ⟨d, hd, hdk, hc ▸ hP⟩
  | none =>
    rw [hb, Option.none_or] at hc
    exact Or.inr ⟨lastOn_eq_none_iff.mp hb, c, hc, hP⟩

end EndsWith

/-! ## Stores that behave like a history -/

section Store

variable {σ : Type x} {step : σ → α → σ} {obs : σ → κ → ν} {key : α → κ} {val : α → ν}

/-- What makes a store last-writer-wins on the states that satisfy `inv`: one operation keeps
`inv`, sets what is observed at the key it addresses, and leaves every other key alone. -/
structure Writes (step : σ → α → σ) (obs : σ → κ → ν) (key : α → κ) (val : α → ν)
    (inv : σ → Prop) : Prop where
  /-- The invariant is kept. -/
  keeps : ∀ s c, inv s → inv (step s c)
  /-- One operation writes one key. -/
  obs_step : ∀ s c k, inv s → obs (step s c) k = if key c = k then val c else obs s k

variable {inv : σ → Prop}

theorem Writes.inv_foldl (h : Writes step obs key val inv) {s : σ} (hs : inv s) (cs : List α) :
    inv (cs.foldl step s) := by
  induction cs generalizing s with
  | nil => exact hs
  | cons c cs ih => exact ih (h.keeps s c hs)

/-- **The last-writer rule**: a history leaves the last value written at every key. -/
theorem Writes.obs_foldl (h : Writes step obs key val inv) {s : σ} (hs : inv s) (cs : List α)
    (k : κ) : obs (cs.foldl step s) k = ((lastOn key k cs).map val).getD (obs s k) := by
  induction cs using List.reverseRecOn with
  | nil => rfl
  | append_singleton cs c ih =>
    rw [List.foldl_append, List.foldl_cons, List.foldl_nil,
      h.obs_step _ c k (h.inv_foldl hs cs), lastOn_concat, ih]
    split <;> rfl

/-- Histories with the same last value at a key are indistinguishable there. -/
theorem Writes.obs_foldl_congr (h : Writes step obs key val inv) {s : σ} (hs : inv s)
    (heq : (lastOn key k as).map val = (lastOn key k bs).map val) :
    obs (as.foldl step s) k = obs (bs.foldl step s) k := by
  rw [h.obs_foldl hs, h.obs_foldl hs, heq]

/-- **A last-writer-wins store tolerates redelivery**: running a prefix of a batch and then the
batch is observed, at every key, as running the batch. -/
theorem Writes.obs_replay (h : Writes step obs key val inv) {s : σ} (hs : inv s)
    (hpre : as <+: bs) (k : κ) :
    obs (bs.foldl step (as.foldl step s)) k = obs (bs.foldl step s) k := by
  rw [← List.foldl_append]
  exact h.obs_foldl_congr hs (by rw [lastOn_replay hpre])

end Store

end LastWrite
