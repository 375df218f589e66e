import RobotCode.IpcLib.Index

/-!
# The shared memory of a lockless queue

`LocklessQueueMemory` as a record: the counter `nextQueueIndex`, the queue of message indices, the
message buffers and one slot per sender and per pinner. The arrays are functions of the position; the
configuration says how far each of them reaches. The futex word of a slot is kept as the three values
the queue distinguishes: zero, held by a live task, marked by the kernel as left by a dead one. The
watchers are not part of it, since nothing that moves messages reads them.
-/

namespace RobotCode.IpcLib

structure Configuration where
  numSenders : Nat
  numPinners : Nat
  queueSize : Nat
  messageDataSize : Nat
  deriving DecidableEq, Repr

namespace Configuration

variable (c : Configuration)

def numMessages : Nat := c.numSenders + c.numPinners + c.queueSize

def maxIndex : Nat := QueueIndex.maxIndex QueueIndex.sentinalValue c.queueSize

/-- What `Initialize` checks: every message has an index. -/
abbrev Indexable : Prop := c.numMessages ≤ Index.maxMessages

end Configuration

abbrev Uuid := Vector UInt8 16

/-- A message buffer: the header, the payload and whether the redzones around the payload were hit. -/
structure Message where
  queueIndex : Nat
  monotonicSentTime : Int
  realtimeSentTime : Int
  monotonicRemoteTime : Int
  realtimeRemoteTime : Int
  remoteQueueIndex : Nat
  sourceBootUuid : Uuid
  length : Nat
  data : Nat → UInt8
  redzonesCorrupt : Bool

/-- The futex word of a sender or pinner slot. -/
inductive Tid where
  | free
  | held
  | died
  deriving DecidableEq, Repr

structure Sender where
  tid : Tid
  scratchIndex : Index
  toReplace : Index
  deriving DecidableEq, Repr

structure Pinner where
  tid : Tid
  pinned : Nat
  scratchIndex : Index
  deriving DecidableEq, Repr

structure Memory where
  nextQueueIndex : Nat
  queue : Nat → Index
  messages : Nat → Message
  senders : Nat → Sender
  pinners : Nat → Pinner

def emptyMessage : Message where
  queueIndex := QueueIndex.invalid.index
  monotonicSentTime := 0
  realtimeSentTime := 0
  monotonicRemoteTime := 0
  realtimeRemoteTime := 0
  remoteQueueIndex := 0
  sourceBootUuid := Vector.replicate 16 0
  length := 0
  data := fun _ => 0
  redzonesCorrupt := false

/-- `InitializeLocklessQueueMemory`: the first messages go to the queue, the next ones to the senders and the last ones to the
pinners. The counter in a fresh queue slot is the furthest away number. -/
def initialMemory (c : Configuration) : Memory where
  nextQueueIndex := QueueIndex.invalid.index
  queue := fun i =>
    .ofParts (((QueueIndex.zero c.queueSize).incrementBy i).decrementBy c.queueSize).index i
  messages := fun _ => emptyMessage
  senders := fun i => ⟨.free, .ofParts 0xffff (i + c.queueSize), .invalid⟩
  pinners := fun i => ⟨.free, QueueIndex.invalid.index, .ofParts 0xffff (i + c.numSenders + c.queueSize)⟩

/-- Initialization aborts when the messages would not fit the message index. -/
def initializeLocklessQueueMemory (c : Configuration) : Option Memory :=
  if c.numMessages ≤ Index.maxMessages then some (initialMemory c) else none

namespace Memory

variable (m : Memory)

def setSlot (j : Nat) (x : Index) : Memory := { m with queue := Function.update m.queue j x }

def setMessage (k : Nat) (store : Message → Message) : Memory :=
  { m with messages := Function.update m.messages k (store (m.messages k)) }

def setSender (i : Nat) (store : Sender → Sender) : Memory :=
  { m with senders := Function.update m.senders i (store (m.senders i)) }

def setPinner (p : Nat) (store : Pinner → Pinner) : Memory :=
  { m with pinners := Function.update m.pinners p (store (m.pinners p)) }

end Memory

namespace Configuration

variable {c : Configuration}

theorem queueSize_le (hmax : c.Indexable) : c.queueSize ≤ 0xfffe := by
  simp only [Indexable, numMessages, Index.maxMessages] at hmax
  omega

theorem queueSize_dvd_maxIndex : c.queueSize ∣ c.maxIndex := QueueIndex.dvd_maxIndex _ _

theorem maxIndex_le : c.maxIndex ≤ 0xffffffff := QueueIndex.maxIndex_le _ _

/-- The queue indices of a queue outnumber its slots by far: the base is within one queue size of
the reserved value. -/
theorem lt_maxIndex_add (hsize : 0 < c.queueSize) : 0xffffffff < c.maxIndex + c.queueSize :=
  QueueIndex.lt_maxIndex_add _ hsize

theorem incrementBy_index {index amount : Nat} (hamount : amount < 2 ^ 32) (hindex : index < c.maxIndex) :
    ((⟨index, c.queueSize⟩ : QueueIndex).incrementBy amount).index = (index + amount) % c.maxIndex :=
  QueueIndex.incrementBy_index amount hamount hindex

theorem decrementBy_index {index amount : Nat} (hamount : amount ≤ c.maxIndex) (hindex : index < c.maxIndex) :
    ((⟨index, c.queueSize⟩ : QueueIndex).decrementBy amount).index = (index + c.maxIndex - amount) % c.maxIndex :=
  QueueIndex.decrementBy_index hamount hindex

end Configuration

end RobotCode.IpcLib
