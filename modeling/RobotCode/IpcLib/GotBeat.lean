import RobotCode.IpcLib.Machine

/-!
# Noticing that somebody else sent the message

A sender that finds the message it wants to send in the slot already has to advance `next_queue_index`. It tells
this message from the one a whole queue before by the sixteen bits of the queue index kept in the slot. Where the
queue indices do not wrap these are `queueSize` apart. At the wrap they are `maxIndex - queueSize` apart, which is a
multiple of `2 ^ 16` for a few large queue sizes.
-/

namespace RobotCode.IpcLib

/-- The low bits of a queue index differ from those of the index one queue before it. -/
def Distinguishable (queueSize index : Nat) : Prop :=
  queueSize ≤ index ∨ queueSize < 0x8000 ∨ ¬ queueSize ∣ 0xffff0000

instance (queueSize index : Nat) : Decidable (Distinguishable queueSize index) :=
  inferInstanceAs (Decidable (_ ∨ _))

open QueueIndex

/-- The modulo base misses `2 ^ 32 - 1` by `r`, and `r + queueSize + 1` is a multiple of `2 ^ 16` only if it is `2 ^ 16`. -/
theorem maxIndex_sub_mod_iff {n : Nat} (hpos : 0 < n) (hlt : n < 0xfffe) :
    (maxIndex sentinalValue n - n) % 2 ^ 16 = 0 ↔ 0x8000 ≤ n ∧ n ∣ 0xffff0000 := by
  have hmod := Nat.div_add_mod 0xffffffff n
  have hr := Nat.mod_lt 0xffffffff hpos
  have hmax : maxIndex sentinalValue n + 0xffffffff % n = 0xffffffff := by
    rw [maxIndex, Nat.mul_comm]
    exact hmod
  constructor
  · intro hzero
    have hsum : 0xffffffff % n + n = 0xffff := by omega
    refine ⟨by omega, ?_⟩
    have hdvd := Nat.dvd_sub (dvd_maxIndex sentinalValue n) (Nat.dvd_refl n)
    rwa [show maxIndex sentinalValue n - n = 0xffff0000 by omega] at hdvd
  · rintro ⟨hlarge, k, hk⟩
    have hrest : 0xffffffff % n = 0xffff - n := by
      have hadd : 0xffffffff = 0xffff - n + n * (k + 1) := by
        rw [Nat.mul_add, ← hk]
        omega
      rw [hadd, Nat.add_mul_mod_self_left]
      exact Nat.mod_eq_of_lt (by omega)
    omega

/-- The sixteen bits agree exactly where the index is before the wrap of a queue of such a size. -/
theorem low_eq_iff {n q : Nat} (hpos : 0 < n) (hlt : n < 0xfffe) (hq : q < maxIndex sentinalValue n) :
    q % 2 ^ 16 = ((⟨q, n⟩ : QueueIndex).decrementBy n).index % 2 ^ 16 ↔ ¬ Distinguishable n q := by
  have hle : n ≤ maxIndex sentinalValue n := count_le_maxIndex hpos (by rw [sentinalValue]; omega)
  rw [decrementBy_index hle hq, Distinguishable, not_or, not_or, not_not, not_lt, not_le,
    ← maxIndex_sub_mod_iff hpos hlt]
  by_cases hwrap : q < n
  · rw [Nat.mod_eq_of_lt (by omega : q + maxIndex sentinalValue n - n < maxIndex sentinalValue n)]
    omega
  · have hsub : (q + maxIndex sentinalValue n - n) %
        maxIndex sentinalValue n = q - n := by
      rw [show q + maxIndex sentinalValue n - n = q - n + maxIndex sentinalValue n by omega, Nat.add_mod_right]
      exact Nat.mod_eq_of_lt (by omega)
    rw [hsub]
    omega

theorem isPlausible_ofParts_iff {n q : Nat} (hpos : 0 < n) (hlt : n < 0xfffe)
    (hq : q < maxIndex sentinalValue n) (k : Nat) :
    (Index.ofParts q k).IsPlausible ((⟨q, n⟩ : QueueIndex).decrementBy n) ↔ ¬ Distinguishable n q := by
  have hle : n ≤ maxIndex sentinalValue n := count_le_maxIndex hpos (by rw [sentinalValue]; omega)
  have hvalid : ((⟨q, n⟩ : QueueIndex).decrementBy n).Valid := by
    have hmax : maxIndex sentinalValue n ≤ 0xffffffff := maxIndex_le _ _
    have hmod : (q + maxIndex sentinalValue n - n) %
        maxIndex sentinalValue n < maxIndex sentinalValue n :=
      Nat.mod_lt _ (by omega)
    rw [QueueIndex.Valid, decrementBy_index hle hq]
    omega
  rw [Index.IsPlausible, QueueIndex.IsPlausible, Index.queueIndex_ofParts, and_low, and_iff_right hvalid]
  exact low_eq_iff hpos hlt hq

theorem zeroOrValid_count (q : QueueIndex) : (zeroOrValid q).count = q.count := by
  rw [zeroOrValid]
  split
  · rfl
  · rfl

/-- A sender that finds its own message in the slot goes on to advance `next_queue_index`, unless the index is before the
wrap of a queue of one of these sizes. -/
theorem got_beat_test_exact (c : Configuration) (hsize : 0 < c.queueSize) (hsenders : 0 < c.numSenders)
    (hmax : c.queueSize + c.numSenders ≤ Index.maxMessages) (q : Nat) (hq : q < c.maxIndex) :
    (q % 2 ^ 16 ≠ ((⟨q, c.queueSize⟩ : QueueIndex).decrementBy c.queueSize).index % 2 ^ 16 ↔
        Distinguishable c.queueSize q) ∧
      ∀ k, (¬ (Index.ofParts q k).IsPlausible ((⟨q, c.queueSize⟩ : QueueIndex).decrementBy c.queueSize) ↔
          Distinguishable c.queueSize q) ∧
        ∀ s i, (s.sender i).pc = .loadToReplace → (s.sender i).nextQueueIndex = ⟨q, c.queueSize⟩ →
          s.memory.queue (s.sender i).slot = .ofParts q k →
          ∃ p, senderNext c s i = some (p, .none) ∧
            (p.pc = .fixNextQueueIndex ↔ Distinguishable c.queueSize q) := by
  have hlt : c.queueSize < 0xfffe := by
    rw [Index.maxMessages] at hmax
    omega
  refine ⟨(low_eq_iff hsize hlt hq).not.trans not_not, ?_⟩
  intro k
  have hallowed := isPlausible_ofParts_iff hsize hlt hq k
  refine ⟨hallowed.not.trans not_not, ?_⟩
  intro s i hpc hnext hslot
  have hcount : (s.sender i).actual.count = c.queueSize := by
    rw [← zeroOrValid_count]
    exact congrArg count hnext
  have hdecremented : (s.sender i).decrementedQueueIndex =
      (⟨q, c.queueSize⟩ : QueueIndex).decrementBy c.queueSize := by
    rw [SenderProc.decrementedQueueIndex, hnext, hcount]
  rw [← hdecremented, ← hslot] at hallowed
  simp only [senderNext, hpc, if_neg hsize.ne']
  refine ⟨_, rfl, ?_⟩
  by_cases h : Distinguishable c.queueSize q
  · simp [hallowed, h]
  · simp [hallowed, h]

/-- Right after the wrap of a queue of ten. -/
theorem got_beat_test_exact_ten : ¬ (Index.ofParts 3 5).IsPlausible ((⟨3, 10⟩ : QueueIndex).decrementBy 10) :=
  ((got_beat_test_exact ⟨1, 0, 10, 0⟩ (by decide) (by decide) (by decide) 3 (by decide)).2 5).1.mpr (by decide)

/-- With 32768 slots the sixteen bits of queue index 0 are those of the index one queue before it. -/
theorem got_beat_unnoticed :
    32768 + 1 ≤ Index.maxMessages ∧ 0 < maxIndex sentinalValue 32768 ∧
      (Index.ofParts 0 5).IsPlausible ((⟨0, 32768⟩ : QueueIndex).decrementBy 32768) := by
  decide +kernel

end RobotCode.IpcLib
