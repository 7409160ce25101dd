import Mathlib.Algebra.Group.Nat.Defs
import Mathlib.Data.Nat.Log

/-!
# Integers in double precision

A double has 53 significant bits. The double nearest to an integer is the integer itself up to `2 ^ 53`, and
rounding never turns the order of two integers around.
-/

namespace Double

/-- The distance of the doubles next to `n`. -/
def ulp (n : ℕ) : ℕ := 2 ^ (n.log2 - 52)

/-- The nearest double. A tie goes to the even one. -/
def round (n : ℕ) : ℕ :=
  if ulp n < 2 * (n % ulp n) ∨ ulp n = 2 * (n % ulp n) ∧ n / ulp n % 2 = 1 then (n / ulp n + 1) * ulp n
  else n / ulp n * ulp n

/-- The product of an integer and of a double that is an integer. -/
def mul (i : ℤ) (n : ℕ) : ℤ :=
  let i := i.sign * round i.natAbs
  i.sign * round (i.natAbs * n)

variable {a b n : ℕ}

theorem ulp_pos : 0 < ulp n := Nat.two_pow_pos _

theorem div_ulp_lt : n / ulp n < 2 ^ 53 := by
  rw [Nat.div_lt_iff_lt_mul ulp_pos, ulp, ← Nat.pow_add]
  exact Nat.lt_log2_self.trans_le (Nat.pow_le_pow_right (by decide) (by omega))

theorem le_div_ulp (h : 52 ≤ n.log2) : 2 ^ 52 ≤ n / ulp n := by
  rw [Nat.le_div_iff_mul_le ulp_pos, ulp, ← Nat.pow_add, Nat.add_sub_cancel' h]
  exact Nat.log2_self_le (by rintro rfl; simp at h)

theorem floor_le_round : n / ulp n * ulp n ≤ round n := by
  rw [round]
  split
  · exact Nat.mul_le_mul_right _ (Nat.le_succ _)
  · exact le_rfl

theorem round_le_ceil : round n ≤ (n / ulp n + 1) * ulp n := by
  rw [round]
  split
  · exact le_rfl
  · exact Nat.mul_le_mul_right _ (Nat.le_succ _)

theorem log2_mono (h : a ≤ b) : a.log2 ≤ b.log2 := by
  rw [Nat.log2_eq_log_two, Nat.log2_eq_log_two]
  exact Nat.log_mono_right h

theorem round_mono (h : a ≤ b) : round a ≤ round b := by
  rcases Nat.lt_or_ge (max 52 a.log2) b.log2 with hlt | hge
  · -- a power of two lies between them
    have hle := le_div_ulp (n := b) (by omega)
    calc round a ≤ (a / ulp a + 1) * ulp a := round_le_ceil
      _ ≤ 2 ^ 53 * ulp a := Nat.mul_le_mul_right _ div_ulp_lt
      _ ≤ 2 ^ 52 * ulp b := by
        rw [ulp, ulp, ← Nat.pow_add, ← Nat.pow_add]
        exact Nat.pow_le_pow_right (by decide) (by omega)
      _ ≤ b / ulp b * ulp b := Nat.mul_le_mul_right _ hle
      _ ≤ round b := floor_le_round
  · have hulp : ulp a = ulp b := by
      have := log2_mono h
      rw [ulp, ulp, show a.log2 - 52 = b.log2 - 52 by omega]
    rcases (Nat.div_le_div_right h : a / ulp b ≤ b / ulp b).lt_or_eq with hlt | heq
    · refine round_le_ceil.trans (le_trans ?_ floor_le_round)
      rw [hulp]
      exact Nat.mul_le_mul_right _ hlt
    · have hmod : a % ulp b ≤ b % ulp b := by
        have ha := Nat.div_add_mod a (ulp b)
        have hb := Nat.div_add_mod b (ulp b)
        rw [heq] at ha
        omega
      rw [round, round, hulp, heq]
      split_ifs with hup
      · exact le_rfl
      · omega
      · exact Nat.mul_le_mul_right _ (Nat.le_succ _)
      · exact le_rfl

theorem round_of_le (h : n ≤ 2 ^ 53) : round n = n := by
  rcases h.lt_or_eq with hlt | rfl
  · have hulp : ulp n = 1 := by
      rcases Nat.eq_zero_or_pos n with rfl | hpos
      · rfl
      · have := (Nat.log2_lt hpos.ne').mpr hlt
        rw [ulp, Nat.sub_eq_zero_of_le (by omega), Nat.pow_zero]
    simp [round, hulp, Nat.mod_one]
  · decide

theorem mul_zero (i : ℤ) : mul i 0 = 0 := by simp [mul, round]

theorem mul_of_le (h : a ≤ 2 ^ 53) : mul a n = round (a * n) := by
  rcases Nat.eq_zero_or_pos a with rfl | hpos
  · simp [mul, round]
  · simp [mul, round_of_le h, Int.sign_natCast_of_ne_zero hpos.ne']

end Double
