import Mathlib

/-!
# Numbers that wrap, and the slots of a ring

A counter that never wraps is kept as its residue, and what is known of it is that it lies in a window
shorter than the modulus; then the residue determines it. A ring of `size` slots is filled round robin,
so the number that each slot takes next lies in the window of `size` numbers that starts at the count
of all numbers handed out so far.
-/

namespace RobotCode.Ring

variable {size n a b : Nat}

/-- Two numbers with the same residue are equal, or a whole round apart. -/
theorem add_le_of_mod_eq (hmod : a % size = b % size) (hlt : a < b) : a + size ≤ b := by
  have hdvd : size ∣ b - a := (Nat.modEq_iff_dvd' hlt.le).mp hmod
  have hle := Nat.le_of_dvd (by omega) hdvd
  omega

theorem eq_of_mod_eq (hmod : a % size = b % size) (hle : a ≤ b) (hlt : b < a + size) : a = b := by
  rcases hle.lt_or_eq with hlt' | heq
  · have := add_le_of_mod_eq hmod hlt'
    omega
  · exact heq

/-- The slot `j` takes the number `due j` next, when `n` numbers were handed out. -/
def Counters (size n : Nat) (due : Nat → Nat) : Prop :=
  ∀ j < size, n ≤ due j ∧ due j < n + size ∧ due j % size = j

variable {due : Nat → Nat}

theorem Counters.initial (size : Nat) : Counters size 0 fun j => j :=
  fun j hj => ⟨Nat.zero_le j, by simpa using hj, Nat.mod_eq_of_lt hj⟩

theorem Counters.due_mod (h : Counters size n due) (hsize : 0 < size) : due (n % size) = n := by
  obtain ⟨hle, hlt, hmod⟩ := h (n % size) (Nat.mod_lt n hsize)
  exact (eq_of_mod_eq hmod.symm hle hlt).symm

theorem Counters.advance {j : Nat} (h : Counters size n due) (hj : j < size) (hdue : due j = n) :
    Counters size (n + 1) (Function.update due j (due j + size)) := by
  intro k hk
  obtain ⟨hle, hlt, hmod⟩ := h k hk
  by_cases hkj : k = j
  · subst hkj
    rw [Function.update_self, Nat.add_mod_right]
    exact ⟨by omega, by omega, hmod⟩
  · rw [Function.update_of_ne hkj]
    have hne : due k ≠ n := by
      intro hn
      have hjmod := (h j hj).2.2
      rw [hn] at hmod
      rw [hdue] at hjmod
      omega
    exact ⟨by omega, by omega, hmod⟩

/-- A number already handed out is a whole round behind its slot, or more. -/
theorem Counters.add_le (h : Counters size n due) (hsize : 0 < size) (ha : a < n) : a + size ≤ due (a % size) := by
  obtain ⟨hle, -, hmod⟩ := h (a % size) (Nat.mod_lt a hsize)
  exact add_le_of_mod_eq hmod.symm (by omega)

end RobotCode.Ring
