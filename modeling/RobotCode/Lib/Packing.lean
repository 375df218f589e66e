import Mathlib

/-!
# Arrays one after another in memory

Byte ranges between two addresses that do not overlap: single ranges, arrays, and several of them in a row.
-/

namespace RobotCode.Packing

/-- The smallest multiple of `a` that is at least `x`. -/
def roundUp (a x : Nat) : Nat := (x + a - 1) / a * a

theorem dvd_roundUp (a x : Nat) : a ∣ roundUp a x := Nat.dvd_mul_left _ _

theorem le_roundUp {a : Nat} (ha : 0 < a) (x : Nat) : x ≤ roundUp a x := by
  have hmod := Nat.div_add_mod (x + a - 1) a
  have hlt := Nat.mod_lt (x + a - 1) ha
  rw [Nat.mul_comm] at hmod
  rw [roundUp]
  omega

theorem roundUp_lt {a : Nat} (ha : 0 < a) (x : Nat) : roundUp a x < x + a := by
  have hle := Nat.div_mul_le_self (x + a - 1) a
  rw [roundUp]
  omega

theorem roundUp_mono (a : Nat) {x y : Nat} (h : x ≤ y) : roundUp a x ≤ roundUp a y :=
  Nat.mul_le_mul_right a (Nat.div_le_div_right (by omega))

structure Range where
  start : Nat
  length : Nat
deriving DecidableEq, Repr

def Range.Disjoint (r s : Range) : Prop := r.start + r.length ≤ s.start ∨ s.start + s.length ≤ r.start

/-- Ranges from `lo` to `hi`, no two of which overlap. -/
structure Packed (lo hi : Nat) (ranges : List Range) : Prop where
  inside : ∀ r ∈ ranges, lo ≤ r.start ∧ r.start + r.length ≤ hi
  disjoint : ranges.Pairwise Range.Disjoint

variable {lo mid hi : Nat} {ranges : List Range}

theorem Packed.mono (h : Packed lo mid ranges) (hle : mid ≤ hi) : Packed lo hi ranges :=
  ⟨fun r hr => ⟨(h.inside r hr).1, (h.inside r hr).2.trans hle⟩, h.disjoint⟩

theorem Packed.append {after : List Range} (h : Packed lo mid ranges) (hafter : Packed mid hi after)
    (hlo : lo ≤ mid) (hhi : mid ≤ hi) : Packed lo hi (ranges ++ after) where
  inside r hr := by
    rcases List.mem_append.mp hr with hr | hr
    · exact ⟨(h.inside r hr).1, (h.inside r hr).2.trans hhi⟩
    · exact ⟨hlo.trans (hafter.inside r hr).1, (hafter.inside r hr).2⟩
  disjoint := List.pairwise_append.mpr ⟨h.disjoint, hafter.disjoint, fun r hr s hs =>
    .inl ((h.inside r hr).2.trans (hafter.inside s hs).1)⟩

theorem Packed.single (start length : Nat) : Packed start (start + length) [⟨start, length⟩] :=
  ⟨by simp, List.pairwise_singleton _ _⟩

theorem Packed.array (start size count : Nat) :
    Packed start (start + size * count) ((List.range count).map fun i => ⟨start + i * size, size⟩) := by
  induction count with
  | zero => exact ⟨by simp, List.Pairwise.nil⟩
  | succ count ih =>
    rw [List.range_succ, List.map_append, Nat.mul_succ, ← Nat.add_assoc, Nat.mul_comm size]
    rw [Nat.mul_comm size] at ih
    exact ih.append (single _ _) (Nat.le_add_right _ _) (Nat.le_add_right _ _)

end RobotCode.Packing
