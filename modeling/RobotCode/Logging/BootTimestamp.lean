import Mathlib

/-!
# Times within a boot

Boots are sequential, and the monotonic clock restarts with each of them, so times compare by their boot
first. Times are in nanoseconds.
-/

namespace RobotCode.Logging

@[ext] structure BootTimestamp where
  boot : Nat
  time : Int
  deriving DecidableEq, Repr

namespace BootTimestamp

def minTime : BootTimestamp := ⟨0, -2 ^ 63⟩

def epoch : BootTimestamp := ⟨0, 0⟩

def add (t : BootTimestamp) (d : Int) : BootTimestamp := ⟨t.boot, t.time + d⟩

/-- `operator<` -/
def Lt (a b : BootTimestamp) : Prop := if a.boot ≠ b.boot then a.boot < b.boot else a.time < b.time

/-- `operator<=` -/
def Le (a b : BootTimestamp) : Prop := if a.boot ≠ b.boot then a.boot ≤ b.boot else a.time ≤ b.time

instance decidableLt (a b : BootTimestamp) : Decidable (Lt a b) :=
  if h : a.boot ≠ b.boot then decidable_of_iff (a.boot < b.boot) (by rw [Lt, if_pos h])
  else decidable_of_iff (a.time < b.time) (by rw [Lt, if_neg h])

instance decidableLe (a b : BootTimestamp) : Decidable (Le a b) :=
  if h : a.boot ≠ b.boot then decidable_of_iff (a.boot ≤ b.boot) (by rw [Le, if_pos h])
  else decidable_of_iff (a.time ≤ b.time) (by rw [Le, if_neg h])

variable {b a : BootTimestamp}

private theorem lt_iff' : Lt a b ↔ a.boot < b.boot ∨ a.boot = b.boot ∧ a.time < b.time := by
  unfold Lt
  split <;> omega

private theorem le_iff' : Le a b ↔ a.boot < b.boot ∨ a.boot = b.boot ∧ a.time ≤ b.time := by
  unfold Le
  split <;> omega

instance : LinearOrder BootTimestamp where
  le := Le
  lt := Lt
  le_refl a := by rw [le_iff']; omega
  le_trans a b c := by simp only [le_iff']; omega
  lt_iff_le_not_ge a b := by rw [lt_iff', le_iff', le_iff']; omega
  le_antisymm a b := by
    rw [le_iff', le_iff', BootTimestamp.ext_iff]
    omega
  le_total a b := by rw [le_iff', le_iff']; omega
  toDecidableLE := decidableLe
  toDecidableLT := decidableLt
  toDecidableEq := inferInstance

theorem lt_iff : a < b ↔ a.boot < b.boot ∨ a.boot = b.boot ∧ a.time < b.time := lt_iff'

theorem le_iff : a ≤ b ↔ a.boot < b.boot ∨ a.boot = b.boot ∧ a.time ≤ b.time := le_iff'

end BootTimestamp

end RobotCode.Logging
