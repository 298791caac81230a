import Mathlib.Algebra.BigOperators.Group.List.Basic
import Mathlib.Algebra.GroupWithZero.Nat
import Mathlib.Data.List.Perm.Basic
import Mathlib.Data.Multiset.AddSub

/-!
# One entry of a list

A family of things of which one changes at a time, as a list.  `exists_perm_set` takes the entry
that changes to the front, before and after, and leaves the others where they are; what is counted
or summed over the family then changes by what that entry contributes.
-/

set_option autoImplicit false

namespace ListSet

universe u v

variable {α : Type u} {β : Type v} {l : List α} {i : ℕ} {a : α}

/-- **The entry that changes, and the others.** -/
theorem exists_perm_set (h : l[i]? = some a) (b : α) :
    ∃ rest : List α, l.Perm (a :: rest) ∧ (l.set i b).Perm (b :: rest) := by
  obtain ⟨hi, rfl⟩ := List.getElem?_eq_some_iff.mp h
  refine ⟨l.eraseIdx i, (List.getElem_cons_eraseIdx_perm hi).symm, ?_⟩
  have hi' : i < (l.set i b).length := by rwa [List.length_set]
  have hset := (List.getElem_cons_eraseIdx_perm hi').symm
  rwa [List.getElem_set_self, List.eraseIdx_set_eq] at hset

theorem countP_set (h : l[i]? = some a) (b : α) (p : α → Bool) :
    (l.set i b).countP p + (p a).toNat = l.countP p + (p b).toNat := by
  obtain ⟨rest, hl, hset⟩ := exists_perm_set h b
  rw [hl.countP_eq, hset.countP_eq, List.countP_cons, List.countP_cons]
  cases p a <;> cases p b <;> simp

/-- There is at most one entry of which `p` is true. -/
theorem countP_le_one {p : α → Bool}
    (h : ∀ (i j : ℕ) a b, l[i]? = some a → l[j]? = some b → p a = true → p b = true → i = j) :
    l.countP p ≤ 1 := by
  induction l with
  | nil => exact Nat.zero_le 1
  | cons c l ih =>
    by_cases hc : p c = true
    · have hnone : l.countP p = 0 := by
        refine List.countP_eq_zero.mpr fun b hb hpb ↦ ?_
        obtain ⟨j, hj⟩ := List.mem_iff_getElem?.mp hb
        exact Nat.succ_ne_zero j (h 0 (j + 1) c b rfl hj hc hpb).symm
      rw [List.countP_cons, hnone, if_pos hc]
    · rw [List.countP_cons, if_neg hc]
      exact ih fun i j a b ha hb hpa hpb ↦ Nat.succ_inj.mp (h (i + 1) (j + 1) a b ha hb hpa hpb)

theorem sum_map_set (h : l[i]? = some a) (b : α) (f : α → ℕ) :
    ((l.set i b).map f).sum + f a = (l.map f).sum + f b := by
  obtain ⟨rest, hl, hset⟩ := exists_perm_set h b
  rw [(hl.map f).sum_eq, (hset.map f).sum_eq, List.map_cons, List.map_cons, List.sum_cons,
    List.sum_cons]
  omega

/-- What the entries hold, in no particular order. -/
theorem coe_filterMap_set (h : l[i]? = some a) (b : α) (f : α → Option β) :
    (↑((l.set i b).filterMap f) + ↑(f a).toList : Multiset β) =
      ↑(l.filterMap f) + ↑(f b).toList := by
  obtain ⟨rest, hl, hset⟩ := exists_perm_set h b
  rw [Multiset.coe_eq_coe.mpr (hl.filterMap f), Multiset.coe_eq_coe.mpr (hset.filterMap f)]
  have hcons (c : α) : (↑((c :: rest).filterMap f) : Multiset β) =
      ↑(f c).toList + ↑(rest.filterMap f) := by
    cases hc : f c <;> simp [hc]
  rw [hcons, hcons, Multiset.add_assoc, Multiset.add_comm,
    Multiset.add_comm (↑(f a).toList : Multiset β)]

/-- A new entry of which `p` is false. -/
theorem any_getElem?_concat {p : α → Bool} {b : α} (hb : p b = false) (j : ℕ) :
    ((l ++ [b])[j]?).any p = (l[j]?).any p := by
  rcases Nat.lt_trichotomy j l.length with hlt | heq | hgt
  · rw [List.getElem?_append_left hlt]
  · subst heq
    simp [hb]
  · have hlen : (l ++ [b]).length ≤ j := by
      rw [List.length_append, List.length_singleton]
      exact hgt
    rw [List.getElem?_eq_none hlen, List.getElem?_eq_none (Nat.le_of_lt hgt)]

/-- What holds of the old entries and of the new one, holds of all. -/
theorem forall_mem_set {P : α → Prop} (hl : ∀ a ∈ l, P a) {b : α} (hb : P b) :
    ∀ a ∈ l.set i b, P a := by
  intro a ha
  rcases List.mem_or_eq_of_mem_set ha with hold | rfl
  · exact hl a hold
  · exact hb

end ListSet
