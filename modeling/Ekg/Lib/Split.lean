import Mathlib.Data.List.TakeWhile

/-!
# Splitting a list in two

`List.splitOnP` cuts a list at every separator, and gives one part more than there are separators,
empty parts included.  What is needed of it here is when there are two parts, and which: the part
before the first separator, and the part after it.
-/

set_option autoImplicit false

namespace Split

universe u

variable {α : Type u} {p : α → Bool} {l m : List α}

/-- The part before the first separator. -/
def before (p : α → Bool) (l : List α) : List α := l.takeWhile fun a ↦ !p a

/-- The part after the first separator. -/
def after (p : α → Bool) (l : List α) : List α := (l.dropWhile fun a ↦ !p a).tail

theorem before_append_cons (hl : ∀ a ∈ l, p a = false) {a : α} (ha : p a = true) :
    before p (l ++ a :: m) = l := by
  rw [before, List.takeWhile_append_of_pos (by simpa using hl),
    List.takeWhile_cons_of_neg (by simp [ha]), List.append_nil]

theorem after_append_cons (hl : ∀ a ∈ l, p a = false) {a : α} (ha : p a = true) :
    after p (l ++ a :: m) = m := by
  rw [after, List.dropWhile_append_of_pos (by simpa using hl),
    List.dropWhile_cons_of_neg (by simp [ha]), List.tail_cons]

/-- A list with a separator, cut at the first one. -/
theorem exists_eq_append_cons (h : 0 < l.countP p) :
    ∃ pre a post, l = pre ++ a :: post ∧ (∀ b ∈ pre, p b = false) ∧ p a = true := by
  induction l with
  | nil => simp at h
  | cons b l ih =>
    rcases hb : p b with _ | _
    · rw [List.countP_cons_of_neg (by simp [hb])] at h
      obtain ⟨pre, a, post, rfl, hpre, ha⟩ := ih h
      exact ⟨b :: pre, a, post, rfl, by simpa [hb] using hpre, ha⟩
    · exact ⟨[], b, l, rfl, by simp, hb⟩

/-- **There is one part more than there are separators.** -/
theorem length_splitOnP (p : α → Bool) (l : List α) :
    (l.splitOnP p).length = l.countP p + 1 := by
  induction l with
  | nil => simp
  | cons a l ih =>
    rw [List.splitOnP_cons_eq_if_modifyHead, List.countP_cons]
    split <;> simp [ih]

/-- **With one separator, the parts are the one before it and the one after it.** -/
theorem splitOnP_eq_pair (h : l.countP p = 1) : l.splitOnP p = [before p l, after p l] := by
  obtain ⟨pre, a, post, rfl, hpre, ha⟩ := exists_eq_append_cons (p := p) (l := l) (by omega)
  have hpost : ∀ b ∈ post, p b = false := by
    have hnone : pre.countP p = 0 := List.countP_eq_zero.mpr (by simpa using hpre)
    rw [List.countP_append, List.countP_cons_of_pos ha, hnone] at h
    simpa using List.countP_eq_zero.mp (show post.countP p = 0 by omega)
  rw [List.splitOnP_append_cons_of_forall_mem hpre a ha, List.splitOnP_eq_singleton hpost,
    before_append_cons hpre ha, after_append_cons hpre ha]

end Split
