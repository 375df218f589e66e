import Mathlib

/-!
# Rounding a quotient to the nearest integer

Adding half of the denominator, with the sign of the numerator, before a division that truncates. Scaling an
integer up by a ratio of at least one, rounding, and scaling it down again gives it back.
-/

namespace RobotCode.Rounding

/-- `numerator / denominator`, rounded to the nearest integer. -/
def roundDiv (numerator denominator : Int) : Int :=
  (numerator + if 0 < numerator then denominator.tdiv 2 else -denominator.tdiv 2).tdiv denominator

variable {n t d x : Int}

theorem roundDiv_zero (ht : 0 < t) : roundDiv 0 t = 0 := by
  have hhalf : t.tdiv 2 = t / 2 := Int.tdiv_eq_ediv_of_nonneg ht.le
  simp only [roundDiv, lt_irrefl, if_false, zero_add, hhalf, Int.neg_tdiv]
  rw [Int.tdiv_eq_zero_of_lt (by omega) (by omega), neg_zero]

theorem roundDiv_of_nonneg (hn : 0 ≤ n) (ht : 0 < t) : roundDiv n t = (n + t / 2) / t := by
  rcases hn.lt_or_eq with hpos | rfl
  · have hhalf : t.tdiv 2 = t / 2 := Int.tdiv_eq_ediv_of_nonneg ht.le
    rw [roundDiv, if_pos hpos, hhalf, Int.tdiv_eq_ediv_of_nonneg (by omega)]
  · rw [roundDiv_zero ht, zero_add, Int.ediv_eq_zero_of_lt (by omega) (by omega)]

theorem roundDiv_bounds (hn : 0 ≤ n) (ht : 0 < t) :
    roundDiv n t * t ≤ n + t / 2 ∧ n + t / 2 < roundDiv n t * t + t := by
  rw [roundDiv_of_nonneg hn ht]
  have hdiv := Int.mul_ediv_add_emod (n + t / 2) t
  have hmod := Int.emod_nonneg (n + t / 2) ht.ne'
  have hlt := Int.emod_lt_of_pos (n + t / 2) ht
  rw [mul_comm] at hdiv
  omega

theorem roundDiv_neg (ht : 0 < t) : roundDiv (-n) t = -roundDiv n t := by
  rcases lt_trichotomy n 0 with hneg | rfl | hpos
  · rw [roundDiv, roundDiv, if_pos (by omega), if_neg (by omega), ← Int.neg_tdiv, neg_add, neg_neg]
  · rw [neg_zero, roundDiv_zero ht, neg_zero]
  · rw [roundDiv, roundDiv, if_neg (by omega), if_pos hpos, ← neg_add, Int.neg_tdiv]

theorem roundDiv_near (n : Int) (ht : 0 < t) : -t ≤ 2 * (roundDiv n t * t - n) ∧ 2 * (roundDiv n t * t - n) ≤ t := by
  rcases le_or_gt 0 n with hn | hn
  · have := roundDiv_bounds hn ht
    omega
  · have := roundDiv_bounds (n := -n) (by omega) ht
    rw [roundDiv_neg ht, neg_mul] at this
    omega

theorem roundDiv_eq_of_bounds (hn : 0 ≤ n) (ht : 0 < t) (hle : x * t ≤ n + t / 2) (hlt : n + t / 2 < x * t + t) :
    roundDiv n t = x := by
  obtain ⟨hle', hlt'⟩ := roundDiv_bounds hn ht
  by_contra hne
  rcases lt_or_gt_of_ne hne with h | h <;> nlinarith

theorem roundDiv_mul_self (hx : 0 ≤ x) (ht : 0 < t) : roundDiv (x * t) t = x :=
  roundDiv_eq_of_bounds (by positivity) ht (by omega) (by omega)

theorem roundDiv_nonneg (hn : 0 ≤ n) (ht : 0 < t) : 0 ≤ roundDiv n t := by
  rw [roundDiv_of_nonneg hn ht]
  exact Int.ediv_nonneg (by omega) ht.le

section Scale

variable (ht : 0 < t) (htd : t ≤ d)

include ht htd

theorem roundDiv_scale_pos (hx : 0 < x) : 0 < roundDiv (x * d) t := by
  have hscaled : d ≤ x * d := by nlinarith
  obtain ⟨-, hlt⟩ := roundDiv_bounds (show 0 ≤ x * d by omega) ht
  by_contra hneg
  have : roundDiv (x * d) t * t ≤ 0 := by nlinarith
  omega

theorem roundDiv_scale_lt (hx : 0 ≤ x) (hlt : x < t) : roundDiv (x * d) t < d := by
  obtain ⟨hle, -⟩ := roundDiv_bounds (show 0 ≤ x * d by nlinarith) ht
  have hscaled : x * d + d ≤ t * d := by nlinarith
  by_contra hge
  have : d * t ≤ roundDiv (x * d) t * t := by nlinarith
  have hcomm := mul_comm t d
  omega

theorem roundDiv_scale_scale (hx : 0 ≤ x) : roundDiv (roundDiv (x * d) t * t) d = x := by
  have hd : 0 < d := ht.trans_le htd
  rcases htd.lt_or_eq with hlt | rfl
  · obtain ⟨hle, hge⟩ := roundDiv_bounds (show 0 ≤ x * d by positivity) ht
    have hnonneg : 0 ≤ roundDiv (x * d) t * t := mul_nonneg (roundDiv_nonneg (by positivity) ht) ht.le
    exact roundDiv_eq_of_bounds hnonneg hd (by omega) (by omega)
  · rw [roundDiv_mul_self hx ht, roundDiv_mul_self hx ht]

end Scale

end RobotCode.Rounding
