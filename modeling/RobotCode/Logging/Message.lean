import RobotCode.Logging.BootTimestamp

/-!
# Logged messages

A log file is a sequence of message headers. Sorting turns them into messages, which carry the boot of
their node and are ordered by time, channel and queue index.
-/

namespace RobotCode.Logging

/-! ### Clock readings

A `monotonic_clock::time_point` counts nanoseconds in 64 bits. Its extreme values double as markers, for
nothing read yet and for no data left. -/

def minTime : Int := -9223372036854775808

def maxTime : Int := 9223372036854775807

/-- A value that a clock reading can have. -/
def IsTime (t : Int) : Prop := minTime ≤ t ∧ t ≤ maxTime

instance (t : Int) : Decidable (IsTime t) := inferInstanceAs (Decidable (minTime ≤ t ∧ t ≤ maxTime))

@[ext] structure BootQueueIndex where
  boot : Nat
  index : Nat
  deriving DecidableEq, Repr

namespace BootQueueIndex

/-- `operator<` -/
def Lt (a b : BootQueueIndex) : Prop := if a.boot = b.boot then a.index < b.index else a.boot < b.boot

instance decidableLt (a b : BootQueueIndex) : Decidable (Lt a b) :=
  if h : a.boot = b.boot then decidable_of_iff (a.index < b.index) (by rw [Lt, if_pos h])
  else decidable_of_iff (a.boot < b.boot) (by rw [Lt, if_neg h])

private theorem lt_iff' {a b : BootQueueIndex} : Lt a b ↔ a.boot < b.boot ∨ a.boot = b.boot ∧ a.index < b.index := by
  unfold Lt
  split <;> omega

instance : LinearOrder BootQueueIndex where
  le a b := ¬ Lt b a
  lt := Lt
  le_refl a := by rw [lt_iff']; omega
  le_trans a b c := by simp only [lt_iff']; omega
  lt_iff_le_not_ge a b := by simp only [lt_iff']; omega
  le_antisymm a b := by
    rw [lt_iff', lt_iff', BootQueueIndex.ext_iff]
    omega
  le_total a b := by rw [lt_iff', lt_iff']; omega
  toDecidableLE a b := inferInstanceAs (Decidable (¬ Lt b a))
  toDecidableLT := decidableLt
  toDecidableEq := inferInstance

theorem lt_iff {a b : BootQueueIndex} : a < b ↔ a.boot < b.boot ∨ a.boot = b.boot ∧ a.index < b.index := lt_iff'

end BootQueueIndex

/-- What a log file holds of one message. A timestamp, written on the node that received a message, has the
remote fields and no data. -/
structure UnpackedMessageHeader where
  channelIndex : Nat
  monotonicSentTime : Int
  realtimeSentTime : Int := 0
  queueIndex : Nat
  monotonicRemoteTime : Option Int := none
  realtimeRemoteTime : Option Int := none
  remoteQueueIndex : Option Nat := none
  monotonicTimestampTime : Int := minTime
  hasMonotonicTimestampTime : Bool := false
  span : List UInt8 := []
  isTime : IsTime monotonicSentTime := by decide
  deriving DecidableEq

@[ext] structure MessageKey where
  time : Int
  channelIndex : Nat
  queueIndex : BootQueueIndex
  deriving DecidableEq, Repr

namespace MessageKey

/-- `Message::operator<`, after its check that the boots are the same. -/
def lt (a b : MessageKey) : Bool :=
  if a.time < b.time then true
  else if a.time > b.time then false
  else if a.channelIndex < b.channelIndex then true
  else if a.channelIndex > b.channelIndex then false
  else decide (a.queueIndex < b.queueIndex)

variable {b a : MessageKey}

private theorem lt_iff' : a.lt b = true ↔ a.time < b.time ∨ a.time = b.time ∧
      (a.channelIndex < b.channelIndex ∨ a.channelIndex = b.channelIndex ∧ a.queueIndex < b.queueIndex) := by
  unfold lt
  split
  · simp [*]
  · split
    · simp only [Bool.false_eq_true, false_iff]
      omega
    · split
      · simp only [true_iff]
        omega
      · split
        · simp only [Bool.false_eq_true, false_iff]
          omega
        · have htime : a.time = b.time := by omega
          have hchannel : a.channelIndex = b.channelIndex := by omega
          simp [htime, hchannel]

instance : LinearOrder MessageKey where
  le a b := ¬ b.lt a = true
  lt a b := a.lt b = true
  le_refl a := by simp [lt_iff']
  le_trans a b c := by
    simp only [lt_iff', BootQueueIndex.lt_iff]
    omega
  lt_iff_le_not_ge a b := by
    simp only [lt_iff', BootQueueIndex.lt_iff]
    omega
  le_antisymm a b := by
    rw [lt_iff', lt_iff', MessageKey.ext_iff, BootQueueIndex.ext_iff, BootQueueIndex.lt_iff, BootQueueIndex.lt_iff]
    omega
  le_total a b := by
    simp only [lt_iff', BootQueueIndex.lt_iff]
    omega
  toDecidableLE a b := inferInstanceAs (Decidable (¬ b.lt a = true))
  toDecidableLT a b := inferInstanceAs (Decidable (a.lt b = true))
  toDecidableEq := inferInstance

theorem lt_of_time_lt (h : a.time < b.time) : a < b := lt_iff'.mpr (.inl h)

theorem time_le_of_lt (h : a < b) : a.time ≤ b.time := by
  obtain h | ⟨h, -⟩ := lt_iff'.mp h
  · exact h.le
  · exact h.le

end MessageKey

/-- A message as it gets sorted on a single node. -/
structure Message where
  channelIndex : Nat
  queueIndex : BootQueueIndex
  timestamp : BootTimestamp
  monotonicRemoteBoot : Nat := 0xffffff
  monotonicTimestampBoot : Nat := 0xffffff
  data : UnpackedMessageHeader
  isTime : IsTime timestamp.time := by decide
  deriving DecidableEq

def Message.key (m : Message) : MessageKey := ⟨m.timestamp.time, m.channelIndex, m.queueIndex⟩

end RobotCode.Logging
