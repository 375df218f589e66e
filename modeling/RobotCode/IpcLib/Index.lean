import Mathlib

/-!
# Queue indices and message indices

The two index types of the lockless queue. A `QueueIndex` counts messages modulo `maxIndex`, the
largest multiple of the queue size that leaves the reserved value free; an `Index` names a message
buffer and carries the low sixteen bits of a queue index beside it. Both are 32-bit words, modelled as
naturals with the wrapping written out.
-/

namespace RobotCode.IpcLib

structure QueueIndex where
  index : Nat
  count : Nat
  deriving DecidableEq, Repr

namespace QueueIndex

def sentinalValue : Nat := 0xffffffff

def invalid : QueueIndex := ⟨0xffffffff, 0⟩

def zero (count : Nat) : QueueIndex := ⟨0, count⟩

def Valid (q : QueueIndex) : Prop := q.index ≠ 0xffffffff

instance (q : QueueIndex) : Decidable q.Valid := inferInstanceAs (Decidable (_ ≠ _))

/-- The modulo base used to wrap, so that no index overlaps the reserved number. -/
def maxIndex (maxValue count : Nat) : Nat := maxValue / count * count

def incrementBy (q : QueueIndex) (amount : Nat) : QueueIndex :=
  let index := (q.index + amount) % 2 ^ 32
  let max := maxIndex sentinalValue q.count
  let index := if index < q.index then (index + 2 ^ 32 - max) % 2 ^ 32 else index
  ⟨index % max, q.count⟩

def increment (q : QueueIndex) : QueueIndex := q.incrementBy 1

def decrementBy (q : QueueIndex) (amount : Nat) : QueueIndex :=
  let index := (q.index + 2 ^ 32 - amount) % 2 ^ 32
  let index := if q.index < index then (index + maxIndex sentinalValue q.count) % 2 ^ 32 else index
  ⟨index, q.count⟩

/-- Whether the sixteen bits kept in an `Index` could belong to this queue index. -/
def IsPlausible (q : QueueIndex) (low : Nat) : Prop := q.Valid ∧ low = q.index &&& 0xffff

instance (q : QueueIndex) (low : Nat) : Decidable (q.IsPlausible low) :=
  inferInstanceAs (Decidable (_ ∧ _))

def wrapped (q : QueueIndex) : Nat := q.index % q.count

def clear (q : QueueIndex) : QueueIndex := ⟨0, q.count⟩

end QueueIndex

/-- The queue index to send at, where the queue's counter is still unset. -/
def zeroOrValid (q : QueueIndex) : QueueIndex := if q.Valid then q else q.clear

/-- A message buffer together with the low sixteen bits of the queue index it was sent at. -/
structure Index where
  raw : Nat
  deriving DecidableEq, Repr

namespace Index

def sentinalValue : Nat := 0xffffffff

/-- The largest number of messages that can be stored before overflowing. -/
def maxMessages : Nat := 0xfffe

def ofParts (queueIndex messageIndex : Nat) : Index :=
  ⟨(queueIndex &&& 0xffff) ||| (messageIndex % 2 ^ 16) <<< 16⟩

def messageIndex (x : Index) : Nat := (x.raw >>> 16) &&& 0xffff

def queueIndex (x : Index) : Nat := x.raw &&& 0xffff

def invalid : Index := ⟨sentinalValue⟩

def Valid (x : Index) : Prop := x.raw ≠ sentinalValue

instance (x : Index) : Decidable x.Valid := inferInstanceAs (Decidable (_ ≠ _))

def IsPlausible (x : Index) (q : QueueIndex) : Prop := q.IsPlausible x.queueIndex

instance (x : Index) (q : QueueIndex) : Decidable (x.IsPlausible q) :=
  inferInstanceAs (Decidable (QueueIndex.IsPlausible _ _))

end Index

theorem QueueIndex.maxIndex_le (value count : Nat) : maxIndex value count ≤ value :=
  Nat.div_mul_le_self value count

theorem QueueIndex.dvd_maxIndex (value count : Nat) : count ∣ maxIndex value count :=
  Nat.dvd_mul_left count (value / count)

theorem QueueIndex.lt_maxIndex_add (value : Nat) {count : Nat} (hcount : 0 < count) :
    value < maxIndex value count + count := by
  have hdiv := Nat.div_add_mod value count
  have hmod := Nat.mod_lt value hcount
  rw [Nat.mul_comm] at hdiv
  rw [maxIndex]
  omega

theorem QueueIndex.count_le_maxIndex {value count : Nat} (hcount : 0 < count) (hle : count ≤ value) :
    count ≤ maxIndex value count := by
  have hdiv : 0 < value / count := Nat.div_pos hle hcount
  exact Nat.le_mul_of_pos_left count hdiv

section Modular

variable {index count : Nat}

theorem QueueIndex.incrementBy_index (amount : Nat) (hamount : amount < 2 ^ 32)
    (hindex : index < maxIndex sentinalValue count) : ((⟨index, count⟩ : QueueIndex).incrementBy amount).index =
      (index + amount) % maxIndex sentinalValue count := by
  have hmax : maxIndex sentinalValue count ≤ 0xffffffff := maxIndex_le _ _
  simp only [incrementBy]
  split
  · rename_i hwrap
    have hover : 2 ^ 32 ≤ index + amount := by omega
    have hshift : ((index + amount) % 2 ^ 32 + 2 ^ 32 - maxIndex sentinalValue count) % 2 ^ 32 =
        index + amount - maxIndex sentinalValue count := by omega
    rw [hshift, Nat.mod_eq_sub_mod (by omega : maxIndex sentinalValue count ≤ index + amount)]
  · rename_i hwrap
    have hno : (index + amount) % 2 ^ 32 = index + amount := by omega
    rw [hno]

theorem QueueIndex.decrementBy_index {amount : Nat} (hamount : amount ≤ maxIndex sentinalValue count)
    (hindex : index < maxIndex sentinalValue count) : ((⟨index, count⟩ : QueueIndex).decrementBy amount).index =
      (index + maxIndex sentinalValue count - amount) % maxIndex sentinalValue count := by
  have hmax : maxIndex sentinalValue count ≤ 0xffffffff := maxIndex_le _ _
  simp only [decrementBy]
  rcases Nat.lt_or_ge index amount with hlt | hge
  · have hraw : (index + 2 ^ 32 - amount) % 2 ^ 32 = index + 2 ^ 32 - amount := by omega
    rw [hraw, if_pos (by omega)]
    rw [Nat.mod_eq_of_lt (by omega : index + maxIndex sentinalValue count - amount < maxIndex sentinalValue count)]
    omega
  · have hraw : (index + 2 ^ 32 - amount) % 2 ^ 32 = index - amount := by omega
    rw [hraw, if_neg (by omega)]
    have hsplit : index + maxIndex sentinalValue count - amount =
        index - amount + maxIndex sentinalValue count := by omega
    have hlt : index - amount < maxIndex sentinalValue count := by omega
    rw [hsplit, Nat.add_mod_right]
    exact (Nat.mod_eq_of_lt hlt).symm

@[simp] theorem QueueIndex.incrementBy_count (q : QueueIndex) (amount : Nat) :
    (q.incrementBy amount).count = q.count := by
  rw [incrementBy]

theorem QueueIndex.Valid.of_lt {q : QueueIndex} (h : q.index < maxIndex sentinalValue count) : q.Valid :=
  (h.trans_le (maxIndex_le _ _)).ne

/-- An index below `maxIndex`, which only a queue of one to `0xffffffff` elements has, moves modulo it. -/
theorem QueueIndex.moves_modular (q : QueueIndex) (amount : Nat) (hamount : amount < 2 ^ 32)
    (hindex : q.index < maxIndex sentinalValue q.count) :
    ((q.incrementBy amount).index = (q.index + amount) % maxIndex sentinalValue q.count ∧
      (q.incrementBy amount).Valid ∧ (q.incrementBy amount).index < maxIndex sentinalValue q.count ∧
      (q.incrementBy amount).wrapped = (q.wrapped + amount) % q.count) ∧
    (amount ≤ maxIndex sentinalValue q.count →
      ((q.decrementBy amount).index : Int) = ((q.index : Int) - amount) % maxIndex sentinalValue q.count ∧
      (q.decrementBy amount).Valid ∧ (q.decrementBy amount).index < maxIndex sentinalValue q.count ∧
      (q.incrementBy amount).decrementBy amount = q) := by
  have hpos : 0 < maxIndex sentinalValue q.count := by omega
  have hup : (q.incrementBy amount).index = _ := incrementBy_index amount hamount hindex
  have hlt := hup.trans_lt (Nat.mod_lt _ hpos)
  refine ⟨⟨hup, .of_lt hlt, hlt, ?_⟩, fun hback => ?_⟩
  · rw [wrapped, hup, incrementBy_count, Nat.mod_mod_of_dvd _ (dvd_maxIndex _ _), wrapped, Nat.mod_add_mod]
  have hdown : (q.decrementBy amount).index = _ := decrementBy_index hback hindex
  have hlt' := hdown.trans_lt (Nat.mod_lt _ hpos)
  refine ⟨?_, .of_lt hlt', hlt', ?_⟩
  · rw [hdown, Int.natCast_mod, Nat.cast_sub (by omega), Nat.cast_add, add_sub_right_comm, Int.add_emod_right]
  · have hundo := decrementBy_index hback hlt
    rw [hup, Nat.add_sub_assoc hback, Nat.mod_add_mod, Nat.add_assoc, Nat.add_sub_cancel' hback,
      Nat.add_mod_right, Nat.mod_eq_of_lt hindex, ← hup] at hundo
    exact congrArg (QueueIndex.mk · q.count) hundo

theorem QueueIndex.moves_modular_wraps :
    (QueueIndex.incrementBy ⟨0xfffffffb, 3⟩ 7).index = 0x100000002 % 0xffffffff ∧
      (QueueIndex.decrementBy ⟨1, 3⟩ 2).index = (1 - 2) % (0xffffffff : Int) :=
  ⟨(moves_modular _ 7 (by decide) (by decide)).1.1, ((moves_modular _ 2 (by decide) (by decide)).2 (by decide)).1⟩

end Modular

theorem and_low (n : Nat) : n &&& 0xffff = n % 2 ^ 16 := Nat.and_two_pow_sub_one_eq_mod n 16

theorem Index.ofParts_raw (queueIndex messageIndex : Nat) :
    (ofParts queueIndex messageIndex).raw = messageIndex % 2 ^ 16 * 2 ^ 16 + queueIndex % 2 ^ 16 := by
  simp only [ofParts, and_low]
  rw [Nat.or_comm, ← Nat.shiftLeft_add_eq_or_of_lt (Nat.mod_lt _ (by decide)), Nat.shiftLeft_eq]

theorem Index.messageIndex_ofParts (queueIndex : Nat) {messageIndex : Nat} (hlt : messageIndex < 2 ^ 16) :
    (ofParts queueIndex messageIndex).messageIndex = messageIndex := by
  rw [Index.messageIndex, ofParts_raw, and_low, Nat.shiftRight_eq_div_pow]
  omega

theorem Index.queueIndex_ofParts (queueIndex messageIndex : Nat) :
    (ofParts queueIndex messageIndex).queueIndex = queueIndex % 2 ^ 16 := by
  rw [Index.queueIndex, ofParts_raw, and_low]
  omega

theorem Index.valid_of_messageIndex_lt {x : Index} (hlt : x.messageIndex < 0xffff) : x.Valid := by
  intro hraw
  rw [messageIndex, hraw, and_low, Nat.shiftRight_eq_div_pow] at hlt
  norm_num [sentinalValue] at hlt

end RobotCode.IpcLib
