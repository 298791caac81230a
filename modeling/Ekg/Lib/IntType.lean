import Mathlib.Data.Int.Range
import Mathlib.Tactic.Linarith

/-!
# Machine integers

An integer type of C++ is a width and a sign.  Its values are integers here, and what the language
says about them is said with three functions: `cast` is `static_cast`, which keeps a value modulo
`2 ^ bits`; `promoted` is the type in which arithmetic is done, which is never narrower than `int`;
and `result` is what an operation yields, which is nothing where a signed type overflows.

What one needs of them to reason about an index is that an offset may be cast before it is added
(`result_cast_add`), as long as the range that it belongs to has a length.
-/

set_option autoImplicit false

/-- An integer type. -/
structure IntType where
  signed : Bool
  bits : ℕ
  bits_pos : 0 < bits
  bits_le : bits ≤ 64
  deriving DecidableEq, Repr

namespace IntType

/-- `int`. -/
def int : IntType := ⟨true, 32, by decide, by decide⟩

/-- `unsigned int`. -/
def unsigned : IntType := ⟨false, 32, by decide, by decide⟩

/-- `size_t`. -/
def size : IntType := ⟨false, 64, by decide, by decide⟩

/-- `x` is a value of the type. -/
def Holds (t : IntType) (x : ℤ) : Prop :=
  if t.signed then -2 ^ (t.bits - 1) ≤ x ∧ x < 2 ^ (t.bits - 1) else 0 ≤ x ∧ x < 2 ^ t.bits

instance (t : IntType) (x : ℤ) : Decidable (t.Holds x) :=
  inferInstanceAs (Decidable
    (if t.signed then -2 ^ (t.bits - 1) ≤ x ∧ x < 2 ^ (t.bits - 1) else 0 ≤ x ∧ x < 2 ^ t.bits))

/-- `static_cast`. -/
def cast (t : IntType) (x : ℤ) : ℤ :=
  if t.signed then x.bmod (2 ^ t.bits) else x % 2 ^ t.bits

/-- The type in which the arithmetic of a type is done. -/
def promoted (t : IntType) : IntType := if t.bits < 32 then int else t

/-- What an operation yields in type `t`, where its value is `x`. -/
def result (t : IntType) (x : ℤ) : Option ℤ :=
  if t.signed then if t.Holds x then some x else none else some (t.cast x)

/-- `std::common_type_t`. -/
def common (t u : IntType) : IntType :=
  if t = u then t
  else if t.promoted.signed = u.promoted.signed then
    if t.promoted.bits < u.promoted.bits then u.promoted else t.promoted
  else if t.promoted.signed then
    if t.promoted.bits ≤ u.promoted.bits then u.promoted else t.promoted
  else if u.promoted.bits ≤ t.promoted.bits then t.promoted else u.promoted

variable {t : IntType} {x y a b : ℤ}

theorem holds_signed (h : t.signed = true) :
    t.Holds x ↔ -2 ^ (t.bits - 1) ≤ x ∧ x < 2 ^ (t.bits - 1) := by rw [Holds, if_pos h]

theorem holds_unsigned (h : t.signed = false) : t.Holds x ↔ 0 ≤ x ∧ x < 2 ^ t.bits := by
  rw [Holds, h, if_neg Bool.false_ne_true]

theorem two_pow_bits (t : IntType) : (2 : ℤ) ^ t.bits = 2 * 2 ^ (t.bits - 1) := by
  rw [← pow_succ', Nat.sub_add_cancel t.bits_pos]

theorem holds_cast (t : IntType) (x : ℤ) : t.Holds (t.cast x) := by
  have hbits := t.two_pow_bits
  cases h : t.signed with
  | false =>
    rw [holds_unsigned h, cast, h, if_neg Bool.false_ne_true]
    exact ⟨Int.emod_nonneg x (by positivity), Int.emod_lt_of_pos x (by positivity)⟩
  | true =>
    rw [holds_signed h, cast, if_pos h]
    have hle := Int.le_bmod (x := x) (Nat.two_pow_pos t.bits)
    have hlt := Int.bmod_lt (x := x) (Nat.two_pow_pos t.bits)
    push_cast at hle hlt
    omega

theorem cast_of_holds (h : t.Holds x) : t.cast x = x := by
  have hbits := t.two_pow_bits
  cases hs : t.signed with
  | false =>
    obtain ⟨hle, hlt⟩ := (holds_unsigned hs).mp h
    rw [cast, hs, if_neg Bool.false_ne_true, Int.emod_eq_of_lt hle hlt]
  | true =>
    obtain ⟨hle, hlt⟩ := (holds_signed hs).mp h
    rw [cast, if_pos hs]
    exact Int.bmod_eq_of_le_mul_two (by push_cast; omega) (by push_cast; omega)

/-- The values of a type have no gaps. -/
theorem Holds.of_between (ha : t.Holds a) (hb : t.Holds b) (hax : a ≤ x) (hxb : x ≤ b) :
    t.Holds x := by
  unfold Holds at ha hb ⊢
  split at ha <;> rename_i hs
  · rw [if_pos hs] at hb ⊢
    omega
  · rw [if_neg hs] at hb ⊢
    omega

theorem cast_cast_add (t : IntType) (x y : ℤ) : t.cast (t.cast x + y) = t.cast (x + y) := by
  unfold cast
  split
  · exact Int.bmod_add_bmod
  · exact Int.emod_add_emod x _ y

theorem promoted_of_unsigned (h : t.promoted.signed = false) : t.promoted = t := by
  unfold promoted at h ⊢
  split at h
  · cases h
  · rename_i hlt
    rw [if_neg hlt]

/-- A narrow type leaves room for a sum. -/
theorem holds_int_add (hbits : t.bits < 32) (hs : t.signed = true) (hx : t.Holds x)
    (hy : t.Holds y) : int.Holds (x + y) := by
  rw [holds_signed hs] at hx hy
  have hpow : (2 : ℤ) ^ (t.bits - 1) ≤ 2 ^ 30 :=
    pow_le_pow_right₀ (by norm_num) (by omega)
  norm_num at hpow
  rw [holds_signed rfl]
  change -(2 : ℤ) ^ 31 ≤ x + y ∧ x + y < (2 : ℤ) ^ 31
  omega

theorem Holds.promoted (h : t.Holds x) : t.promoted.Holds x := by
  unfold IntType.promoted
  split
  · rename_i hbits
    rw [holds_signed rfl]
    change -(2 : ℤ) ^ 31 ≤ x ∧ x < (2 : ℤ) ^ 31
    have hpow : (2 : ℤ) ^ t.bits ≤ 2 ^ 31 := pow_le_pow_right₀ (by norm_num) (by omega)
    have htwo := t.two_pow_bits
    cases hs : t.signed with
    | false =>
      rw [holds_unsigned hs] at h
      omega
    | true =>
      rw [holds_signed hs] at h
      omega
  · exact h

/-- **An offset may be cast before it is added.**  Where a range has a length in the type in which
one computes, its elements are found from the cast of their distance to its start. -/
theorem result_cast_add (ha : t.Holds a) (hb : t.Holds b) (hx : 0 ≤ x) (hxb : a + x ≤ b)
    (hlength : t.promoted.result (b - a) ≠ none) :
    (t.promoted.result (t.cast x + a)).map t.cast = some (a + x) := by
  have hholds : t.Holds (a + x) := ha.of_between hb (by omega) hxb
  have hvalue : t.cast (t.cast x + a) = a + x := by
    rw [cast_cast_add, add_comm x a, cast_of_holds hholds]
  cases hs : t.promoted.signed with
  | false =>
    -- unsigned arithmetic is modulo the same power of two
    have htype := promoted_of_unsigned hs
    rw [result, hs, if_neg Bool.false_ne_true, Option.map_some, htype,
      cast_of_holds (t.holds_cast _), hvalue]
  | true =>
    have hsum : t.promoted.Holds (t.cast x + a) := by
      by_cases hbits : t.bits < 32
      · have hint : t.promoted = int := if_pos hbits
        cases hsigned : t.signed with
        | false =>
          -- an unsigned offset is no larger than the end of its range
          have hnonneg := ((holds_unsigned hsigned).mp ha).1
          have hoffset : t.Holds x :=
            (show t.Holds 0 from (holds_unsigned hsigned).mpr ⟨le_refl 0, by positivity⟩).of_between
              hb hx (by omega)
          rw [cast_of_holds hoffset, add_comm]
          exact hholds.promoted
        | true =>
          rw [hint]
          exact holds_int_add hbits hsigned (t.holds_cast x) ha
      · have htype : t.promoted = t := if_neg hbits
        rw [htype] at hs hlength ⊢
        have hdifference : t.Holds (b - a) := by
          by_contra hnot
          exact hlength (by rw [result, if_pos hs, if_neg hnot])
        have hzero : t.Holds 0 := by
          rw [holds_signed hs]
          constructor
          · exact neg_nonpos.mpr (by positivity)
          · positivity
        rw [cast_of_holds (hzero.of_between hdifference hx (by omega)), add_comm]
        exact hholds
    rw [result, if_pos hs, if_pos hsum, Option.map_some, hvalue]

/-- The length of a range is a value of `size_t`. -/
theorem holds_size_sub (ha : t.Holds a) (hb : t.Holds b) (hab : a ≤ b) :
    size.Holds (b - a) := by
  rw [holds_unsigned rfl]
  change 0 ≤ b - a ∧ b - a < (2 : ℤ) ^ 64
  have hpow : (2 : ℤ) ^ t.bits ≤ 2 ^ 64 := pow_le_pow_right₀ (by norm_num) t.bits_le
  have htwo := t.two_pow_bits
  cases hs : t.signed with
  | false =>
    rw [holds_unsigned hs] at ha hb
    omega
  | true =>
    rw [holds_signed hs] at ha hb
    omega

/-- The length of a range is computed without loss, where it is computed at all. -/
theorem eq_of_result_sub (ha : t.Holds a) (hb : t.Holds b) (hab : a ≤ b)
    (h : t.promoted.result (b - a) = some x) : x = b - a := by
  unfold result at h
  split at h
  · exact (Option.some_inj.mp (Option.ite_none_right_eq_some.mp h).2).symm
  · rename_i hs
    have hunsigned : t.promoted.signed = false := Bool.eq_false_iff.mpr hs
    have htype := promoted_of_unsigned hunsigned
    rw [htype] at h hunsigned
    have hdifference : t.Holds (b - a) := by
      rw [holds_unsigned hunsigned] at ha hb ⊢
      omega
    rw [← Option.some_inj.mp h, cast_of_holds hdifference]

end IntType

namespace Int

/-! ## Ranges -/

theorem range_self (a : ℤ) : range a a = [] := by
  rw [range, sub_self]
  rfl

/-- Two ranges that meet. -/
theorem range_append {a b c : ℤ} (hab : a ≤ b) (hbc : b ≤ c) :
    range a b ++ range b c = range a c := by
  have hlength : (c - a).toNat = (b - a).toNat + (c - b).toNat := by omega
  rw [range, range, range, hlength, List.range_add, List.map_append, List.map_map]
  congr 1
  refine List.map_congr_left fun r _ ↦ ?_
  change b + (r : ℤ) = a + ((b - a).toNat + r : ℕ)
  omega

/-- Ranges of which each begins where the one before ends. -/
theorem flatMap_range (p : ℕ → ℤ) {n : ℕ} (hp : ∀ i < n, p i ≤ p (i + 1)) :
    (List.range n).flatMap (fun i ↦ range (p i) (p (i + 1))) = range (p 0) (p n) := by
  induction n with
  | zero => exact (range_self (p 0)).symm
  | succ n ih =>
    have hmono : p 0 ≤ p n := by
      have hle : ∀ m ≤ n, p 0 ≤ p m := by
        intro m hm
        induction m with
        | zero => exact le_refl _
        | succ m ihm => exact (ihm (by omega)).trans (hp m (by omega))
      exact hle n (le_refl n)
    rw [List.range_succ, List.flatMap_append, ih fun i hi ↦ hp i (by omega), List.flatMap_singleton,
      range_append hmono (hp n (by omega))]

end Int
