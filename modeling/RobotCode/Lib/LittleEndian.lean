import Mathlib

/-!
# Little endian numbers

Numbers as a fixed count of bytes, the lowest one first.
-/

namespace RobotCode.LittleEndian

/-- The lowest `k` bytes of a number. -/
def split : Nat → Nat → List UInt8
  | 0, _ => []
  | k + 1, x => UInt8.ofNat x :: split k (x / 256)

def combine : List UInt8 → Nat
  | [] => 0
  | b :: rest => b.toNat + 256 * combine rest

@[simp] theorem length_split (k x : Nat) : (split k x).length = k := by
  induction k generalizing x with
  | zero => rfl
  | succ k ih => rw [split, List.length_cons, ih]

theorem combine_split (k x : Nat) : combine (split k x) = x % 256 ^ k := by
  induction k generalizing x with
  | zero => rw [split, combine, Nat.pow_zero, Nat.mod_one]
  | succ k ih =>
    rw [split, combine, ih, UInt8.toNat_ofNat', Nat.pow_succ 256 k, Nat.mul_comm (256 ^ k), Nat.mod_mul]

end RobotCode.LittleEndian
