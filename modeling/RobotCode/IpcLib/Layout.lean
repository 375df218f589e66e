import RobotCode.Lib.Packing
import RobotCode.IpcLib.Memory

/-!
# Where things are in the shared memory of a queue

The header of the memory is followed by the queue, the messages, the watchers, the senders and the pinners, each list
rounded up to the alignment of any type. A message is its header and room for the data. The data is moved inside of
that room so that it ends at a multiple of 64, and is surrounded by redzones.

The numbers are 64 bit ones, which wrap around. Nothing checks the configuration for sizes for which they do.
-/

namespace RobotCode.IpcLib

open Packing List

/-- The alignment that is enough for any type. -/
def kDataAlignment : Nat := 16

def kChannelDataAlignment : Nat := 64

def kChannelDataRedzone : Nat := 32

/-- The value of a `size_t` expression. -/
def sizeT (x : Nat) : Nat := x % 2 ^ 64

structure TypeLayout where
  size : Nat
  align : Nat
  size_pos : 0 < size
  align_dvd_size : align ∣ size
  align_dvd : align ∣ kDataAlignment

/-- The types in the memory. The data after the `LocklessQueueMemory` has the alignment of any type, and so has it. -/
structure QueueTypes where
  memory : TypeLayout
  atomicIndex : TypeLayout
  message : TypeLayout
  watcher : TypeLayout
  sender : TypeLayout
  pinner : TypeLayout
  memory_align : memory.align = kDataAlignment

structure LocklessQueueConfiguration extends Configuration where
  numWatchers : Nat
deriving DecidableEq, Repr

def alignmentRoundUp (x : Nat) : Nat := sizeT (x + kDataAlignment - 1) / kDataAlignment * kDataAlignment

section Sizes

variable (t : QueueTypes) (c : LocklessQueueConfiguration)

def messageSize : Nat :=
  sizeT (alignmentRoundUp (sizeT (c.messageDataSize + kChannelDataRedzone * 2 + (kChannelDataAlignment - 1))) +
    t.message.size)

def numMessages : Nat := sizeT c.toConfiguration.numMessages

def sizeOfList (size count : Nat) : Nat := alignmentRoundUp (sizeT (size * count))

def sizeOfQueue : Nat := sizeOfList t.atomicIndex.size c.queueSize

def sizeOfMessages : Nat := sizeOfList (messageSize t c) (numMessages c)

def sizeOfWatchers : Nat := sizeOfList t.watcher.size c.numWatchers

def sizeOfSenders : Nat := sizeOfList t.sender.size c.numSenders

def sizeOfPinners : Nat := sizeOfList t.pinner.size c.numPinners

inductive LayoutCheck where
  | aligned
  | preRedzone
  | dataSize
  | redzoneEnd
  | postRedzone
deriving DecidableEq, Repr

/-- Confirm that everything is aligned to the alignment requirements of the type. -/
def checkAligned (l : TypeLayout) (size : Nat) : Except LayoutCheck Nat :=
  if size % l.align = 0 then .ok size else .error .aligned

/-- `LocklessQueueMemorySize`. It rounds up the size of the data before everything else. -/
def locklessQueueMemorySize : Except LayoutCheck Nat := do
  let c : LocklessQueueConfiguration := { c with messageDataSize := alignmentRoundUp c.messageDataSize }
  let size ← checkAligned t.memory t.memory.size
  let size ← checkAligned t.atomicIndex size
  let size ← checkAligned t.message (sizeT (size + sizeOfQueue t c))
  let size ← checkAligned t.watcher (sizeT (size + sizeOfMessages t c))
  let size ← checkAligned t.sender (sizeT (size + sizeOfWatchers t c))
  let size ← checkAligned t.pinner (sizeT (size + sizeOfSenders t c))
  .ok (sizeT (size + sizeOfPinners t c))

variable (base : Nat)

def getQueue (index : Nat) : Nat := sizeT (base + t.memory.size + t.atomicIndex.size * (index % 2 ^ 32))

def getMessage (index : Index) : Nat :=
  sizeT (base + t.memory.size + sizeOfQueue t c + index.messageIndex * messageSize t c)

def getWatcher (watcherIndex : Nat) : Nat :=
  sizeT (base + t.memory.size + sizeOfQueue t c + sizeOfMessages t c + watcherIndex * t.watcher.size)

def getSender (senderIndex : Nat) : Nat :=
  sizeT (base + t.memory.size + sizeOfQueue t c + sizeOfMessages t c + sizeOfWatchers t c +
    senderIndex * t.sender.size)

def getPinner (pinnerIndex : Nat) : Nat :=
  sizeT (base + t.memory.size + sizeOfQueue t c + sizeOfMessages t c + sizeOfWatchers t c + sizeOfSenders t c +
    pinnerIndex * t.pinner.size)

def elements (align length count : Nat) (get : Nat → Nat) : List (Nat × Range) :=
  (range count).map fun i => (align, ⟨get i, length⟩)

def objects : List (Nat × Range) :=
  [(t.memory.align, ⟨base, t.memory.size⟩)] ++
  elements t.atomicIndex.align t.atomicIndex.size c.queueSize (getQueue t base) ++
  elements t.message.align (messageSize t c) (numMessages c) (fun i => getMessage t c base (.ofParts 0 i)) ++
  elements t.watcher.align t.watcher.size c.numWatchers (getWatcher t c base) ++
  elements t.sender.align t.sender.size c.numSenders (getSender t c base) ++
  elements t.pinner.align t.pinner.size c.numPinners (getPinner t c base)

end Sizes

def roundChannelData (data size : Nat) : Nat :=
  let dataEnd := sizeT (data + size)
  let dataEndMax := sizeT (dataEnd + (kChannelDataAlignment - 1))
  let roundedDataEnd := dataEndMax - dataEndMax % kChannelDataAlignment
  sizeT (roundedDataEnd + 2 ^ 64 - sizeT size)

section Message

variable (t : QueueTypes) (message messageDataSize : Nat)

def messageData : Nat := roundChannelData (sizeT (message + t.message.size + kChannelDataRedzone)) messageDataSize

def preRedzone : Except LayoutCheck Range :=
  let start := sizeT (message + t.message.size)
  let size := sizeT (messageData t message messageDataSize + 2 ^ 64 - start)
  if size < kChannelDataRedzone + kChannelDataAlignment then .ok ⟨start, size⟩ else .error .preRedzone

def postRedzone (messageSize : Nat) : Except LayoutCheck Range :=
  let redzoneEnd := sizeT (message + messageSize)
  let dataEnd := sizeT (messageData t message messageDataSize + messageDataSize)
  if messageDataSize < messageSize then
    if dataEnd < redzoneEnd then
      if redzoneEnd - dataEnd < kChannelDataRedzone + kChannelDataAlignment * 2 then
        .ok ⟨dataEnd, redzoneEnd - dataEnd⟩
      else .error .postRedzone
    else .error .redzoneEnd
  else .error .dataSize

/-- The data ends at a multiple of 64, inside of the message and between two redzones of at least 32 bytes that pass the
checks. -/
structure MessageFits (messageSize : Nat) : Prop where
  data_end : kChannelDataAlignment ∣ messageData t message messageDataSize + messageDataSize
  pre : ∃ pre, preRedzone t message messageDataSize = .ok pre ∧ kChannelDataRedzone ≤ pre.length ∧
    pre.start = message + t.message.size ∧ pre.start + pre.length = messageData t message messageDataSize
  post : ∃ post, postRedzone t message messageDataSize messageSize = .ok post ∧ kChannelDataRedzone ≤ post.length ∧
    post.start = messageData t message messageDataSize + messageDataSize ∧
    post.start + post.length = message + messageSize

end Message

/-! ### Sizes that do not wrap around -/

theorem sizeT_eq {x : Nat} (h : x < 2 ^ 64) : sizeT x = x := Nat.mod_eq_of_lt h

theorem le_up (x : Nat) : x ≤ roundUp kDataAlignment x := le_roundUp (by decide) x

theorem alignmentRoundUp_eq {x : Nat} (h : roundUp kDataAlignment x < 2 ^ 64) :
    alignmentRoundUp x = roundUp kDataAlignment x := by
  have hdvd := dvd_roundUp kDataAlignment x
  have hle := le_up x
  rw [alignmentRoundUp, sizeT_eq, roundUp]
  simp only [kDataAlignment] at *
  omega

variable {start count size room : Nat}

theorem sizeOfList_eq (h : roundUp kDataAlignment (size * count) < 2 ^ 64) :
    sizeOfList size count = roundUp kDataAlignment (size * count) := by
  rw [sizeOfList, sizeT_eq ((le_up _).trans_lt h), alignmentRoundUp_eq h]

section Exact

variable (t : QueueTypes) (c : LocklessQueueConfiguration)

/-- The bytes of a message with room for `dataSize` bytes of data. -/
def messageBytes (dataSize : Nat) : Nat :=
  roundUp kDataAlignment (dataSize + kChannelDataRedzone * 2 + (kChannelDataAlignment - 1)) + t.message.size

/-- The bytes of the lists up to the messages, when each message takes `bytes`. -/
def memoryBytesWith (bytes : Nat) : Nat :=
  t.memory.size + roundUp kDataAlignment (t.atomicIndex.size * c.queueSize) +
    roundUp kDataAlignment (bytes * c.toConfiguration.numMessages) +
    roundUp kDataAlignment (t.watcher.size * c.numWatchers) +
    roundUp kDataAlignment (t.sender.size * c.numSenders) + roundUp kDataAlignment (t.pinner.size * c.numPinners)

/-- The bytes that `LocklessQueueMemorySize` adds up. -/
def memoryBytes : Nat := memoryBytesWith t c (messageBytes t (roundUp kDataAlignment c.messageDataSize))

end Exact

variable {t : QueueTypes} {c : LocklessQueueConfiguration} {base : Nat}

theorem messageSize_of_lt (h : messageBytes t c.messageDataSize < 2 ^ 64) :
    messageSize t c = messageBytes t c.messageDataSize := by
  have hround : roundUp kDataAlignment (c.messageDataSize + kChannelDataRedzone * 2 + (kChannelDataAlignment - 1)) <
      2 ^ 64 := (Nat.le_add_right _ _).trans_lt h
  rw [messageSize, sizeT_eq ((le_up _).trans_lt hround), alignmentRoundUp_eq hround]
  exact sizeT_eq h

theorem messageBytes_mono {a b : Nat} (h : a ≤ b) : messageBytes t a ≤ messageBytes t b :=
  Nat.add_le_add_right (roundUp_mono _ (by omega)) _

/-- The lists when nothing wraps around. -/
structure Exact (t : QueueTypes) (c : LocklessQueueConfiguration) : Prop where
  numMessages_eq : numMessages c = c.toConfiguration.numMessages
  messageSize_eq : 0 < c.toConfiguration.numMessages → messageSize t c = messageBytes t c.messageDataSize
  queue : sizeOfQueue t c = roundUp kDataAlignment (t.atomicIndex.size * c.queueSize)
  messages : sizeOfMessages t c =
    roundUp kDataAlignment (messageBytes t c.messageDataSize * c.toConfiguration.numMessages)
  watchers : sizeOfWatchers t c = roundUp kDataAlignment (t.watcher.size * c.numWatchers)
  senders : sizeOfSenders t c = roundUp kDataAlignment (t.sender.size * c.numSenders)
  pinners : sizeOfPinners t c = roundUp kDataAlignment (t.pinner.size * c.numPinners)

theorem Exact.of_lt (h : memoryBytesWith t c (messageBytes t c.messageDataSize) < 2 ^ 64) : Exact t c := by
  have hqueue := le_up (t.atomicIndex.size * c.queueSize)
  have hsenders := le_up (t.sender.size * c.numSenders)
  have hpinners := le_up (t.pinner.size * c.numPinners)
  have hmessages := le_up (messageBytes t c.messageDataSize * c.toConfiguration.numMessages)
  rw [memoryBytesWith] at h
  have hcount : numMessages c = c.toConfiguration.numMessages := by
    have hq := Nat.le_mul_of_pos_left c.queueSize t.atomicIndex.size_pos
    have hs := Nat.le_mul_of_pos_left c.numSenders t.sender.size_pos
    have hp := Nat.le_mul_of_pos_left c.numPinners t.pinner.size_pos
    refine sizeT_eq ?_
    rw [Configuration.numMessages]
    omega
  have hsize : 0 < c.toConfiguration.numMessages → messageSize t c = messageBytes t c.messageDataSize := by
    intro hpos
    have hle := Nat.le_mul_of_pos_right (messageBytes t c.messageDataSize) hpos
    exact messageSize_of_lt (by omega)
  refine ⟨hcount, hsize, sizeOfList_eq (by omega), ?_, sizeOfList_eq (by omega), sizeOfList_eq (by omega),
    sizeOfList_eq (by omega)⟩
  rw [sizeOfMessages, hcount]
  rcases Nat.eq_zero_or_pos c.toConfiguration.numMessages with hzero | hpos
  · rw [hzero, Nat.mul_zero, sizeOfList_eq (by rw [Nat.mul_zero]; decide), Nat.mul_zero]
  · rw [hsize hpos, sizeOfList_eq (by omega)]

theorem memoryBytesWith_mono {a b : Nat} (h : a ≤ b) : memoryBytesWith t c a ≤ memoryBytesWith t c b := by
  have hround := roundUp_mono kDataAlignment (Nat.mul_le_mul_right c.toConfiguration.numMessages h)
  rw [memoryBytesWith, memoryBytesWith]
  omega

theorem checkAligned_eq (l : TypeLayout) (h : kDataAlignment ∣ size) : checkAligned l size = .ok size :=
  if_pos (Nat.mod_eq_zero_of_dvd (l.align_dvd.trans h))

theorem checkAligned_add (l : TypeLayout) {x y : Nat} (hx : kDataAlignment ∣ x) (hy : kDataAlignment ∣ y)
    (h : x + y < 2 ^ 64) : checkAligned l (sizeT (x + y)) = .ok (x + y) := by
  rw [sizeT_eq h, checkAligned_eq l (dvd_add hx hy)]

theorem QueueTypes.dvd_memory_size (t : QueueTypes) : kDataAlignment ∣ t.memory.size :=
  t.memory_align ▸ t.memory.align_dvd_size

theorem memoryBytesWith_alignmentRoundUp (h : memoryBytes t c < 2 ^ 64) :
    memoryBytesWith t c (messageBytes t (alignmentRoundUp c.messageDataSize)) = memoryBytes t c := by
  rcases Nat.eq_zero_or_pos c.toConfiguration.numMessages with hzero | hpos
  · rw [memoryBytes, memoryBytesWith, memoryBytesWith, hzero, Nat.mul_zero, Nat.mul_zero]
  · have hmul := Nat.le_mul_of_pos_right (messageBytes t (roundUp kDataAlignment c.messageDataSize)) hpos
    have hmessages := le_up
      (messageBytes t (roundUp kDataAlignment c.messageDataSize) * c.toConfiguration.numMessages)
    have hround : roundUp kDataAlignment c.messageDataSize ≤
        messageBytes t (roundUp kDataAlignment c.messageDataSize) := by
      have := le_up (roundUp kDataAlignment c.messageDataSize + kChannelDataRedzone * 2 + (kChannelDataAlignment - 1))
      rw [messageBytes]
      omega
    rw [alignmentRoundUp_eq, memoryBytes]
    rw [memoryBytes, memoryBytesWith] at h
    omega

theorem locklessQueueMemorySize_eq (h : memoryBytes t c < 2 ^ 64) :
    locklessQueueMemorySize t c = .ok (memoryBytes t c) := by
  have hsum := memoryBytesWith_alignmentRoundUp h
  have hexact : Exact t { c with messageDataSize := alignmentRoundUp c.messageDataSize } := Exact.of_lt (hsum.trans_lt h)
  have hcount : ({ c with messageDataSize := alignmentRoundUp c.messageDataSize } : Configuration).numMessages =
    c.toConfiguration.numMessages := rfl
  have hmemory := t.dvd_memory_size
  have hqueue := dvd_roundUp kDataAlignment (t.atomicIndex.size * c.queueSize)
  have hmessages := dvd_roundUp kDataAlignment
    (messageBytes t (alignmentRoundUp c.messageDataSize) * c.toConfiguration.numMessages)
  have hwatchers := dvd_roundUp kDataAlignment (t.watcher.size * c.numWatchers)
  have hsenders := dvd_roundUp kDataAlignment (t.sender.size * c.numSenders)
  rw [← hsum, memoryBytesWith] at h ⊢
  simp only [locklessQueueMemorySize, hexact.queue, hexact.messages, hexact.watchers, hexact.senders, hexact.pinners,
    hcount]
  generalize roundUp kDataAlignment (t.atomicIndex.size * c.queueSize) = queue at *
  generalize roundUp kDataAlignment
    (messageBytes t (alignmentRoundUp c.messageDataSize) * c.toConfiguration.numMessages) = messages at *
  generalize roundUp kDataAlignment (t.watcher.size * c.numWatchers) = watchers at *
  generalize roundUp kDataAlignment (t.sender.size * c.numSenders) = senders at *
  simp [bind, Except.bind, checkAligned_eq _ hmemory, checkAligned_add _ hmemory hqueue (by omega), checkAligned_add _ (dvd_add hmemory hqueue) hmessages (by omega), checkAligned_add _ (dvd_add (dvd_add hmemory hqueue) hmessages) hwatchers (by omega), checkAligned_add _ (dvd_add (dvd_add (dvd_add hmemory hqueue) hmessages) hwatchers) hsenders (by omega), sizeT_eq h]

/-! ### The layout -/

structure Placed (lo hi : Nat) (objects : List (Nat × Range)) : Prop where
  packed : Packed lo hi (objects.map Prod.snd)
  aligned : ∀ o ∈ objects, o.1 ∣ o.2.start

theorem Placed.elements {align length : Nat} (get : Nat → Nat) (hstart : align ∣ start)
    (hlength : 0 < count → align ∣ length) (hroom : length * count ≤ room) (hget : ∀ i < count, get i = start + i * length) :
    Placed start (start + room) (elements align length count get) := by
  have hranges : (IpcLib.elements align length count get).map Prod.snd =
      (range count).map fun i => ⟨start + i * length, length⟩ := by
    rw [IpcLib.elements, map_map]
    exact map_congr_left fun i hi => by simp [hget i (mem_range.mp hi)]
  refine ⟨hranges ▸ (Packed.array start length count).mono (by omega), fun o ho => ?_⟩
  obtain ⟨i, hi, rfl⟩ := mem_map.mp ho
  show align ∣ get i
  rw [hget i (mem_range.mp hi)]
  exact dvd_add hstart ((hlength (Nat.zero_lt_of_lt (mem_range.mp hi))).mul_left i)

theorem Placed.append {lo : Nat} {objects after : List (Nat × Range)} (h : Placed lo start objects)
    (hlo : lo ≤ start) (hafter : Placed start (start + room) after) : Placed lo (start + room) (objects ++ after) where
  packed := by
    rw [map_append]
    exact h.packed.append hafter.packed hlo (Nat.le_add_right _ _)
  aligned o ho := (mem_append.mp ho).elim (h.aligned o) (hafter.aligned o)

theorem sizeT_element {i : Nat} (hi : i < count) (hroom : size * count ≤ room)
    (h : start + room < 2 ^ 64) : sizeT (start + i * size) = start + i * size := by
  have hle := Nat.mul_le_mul_left size hi.le
  rw [Nat.mul_comm] at hle
  exact sizeT_eq (by omega)

theorem Exact.sizeOfMessages_eq (h : Exact t c) :
    sizeOfMessages t c = roundUp kDataAlignment (messageSize t c * numMessages c) := by
  rw [h.messages, h.numMessages_eq]
  rcases Nat.eq_zero_or_pos c.toConfiguration.numMessages with hzero | hpos
  · rw [hzero, Nat.mul_zero, Nat.mul_zero]
  · rw [h.messageSize_eq hpos]

theorem Exact.dvd_messageSize (h : Exact t c) (hpos : 0 < c.toConfiguration.numMessages) :
    t.message.align ∣ messageSize t c := by
  rw [h.messageSize_eq hpos]
  exact dvd_add (t.message.align_dvd.trans (dvd_roundUp _ _)) t.message.align_dvd_size

theorem Exact.getQueue_eq (h : Exact t c) (hmax : numMessages c ≤ Index.maxMessages)
    (hfits : base + t.memory.size + sizeOfQueue t c < 2 ^ 64) {i : Nat} (hi : i < c.queueSize) :
    getQueue t base i = base + t.memory.size + i * t.atomicIndex.size := by
  have hlt : i < 2 ^ 32 := by
    have hle : c.queueSize ≤ 0xfffe := by
      rw [h.numMessages_eq, Configuration.numMessages, Index.maxMessages] at hmax
      omega
    omega
  rw [getQueue, Nat.mod_eq_of_lt hlt, Nat.mul_comm]
  exact sizeT_element hi (h.queue ▸ le_up _) hfits

theorem Exact.getMessage_eq (h : Exact t c) (hmax : numMessages c ≤ Index.maxMessages)
    (hfits : base + t.memory.size + sizeOfQueue t c + sizeOfMessages t c < 2 ^ 64) {i : Nat} (hi : i < numMessages c) :
    getMessage t c base (.ofParts 0 i) = base + t.memory.size + sizeOfQueue t c + i * messageSize t c := by
  have hlt : i < 2 ^ 16 := hi.trans_le (hmax.trans (by decide))
  rw [getMessage, Index.messageIndex_ofParts 0 hlt]
  exact sizeT_element hi (h.sizeOfMessages_eq ▸ le_up _) hfits

theorem Exact.placed (h : Exact t c) (hbase : kDataAlignment ∣ base) (hmax : numMessages c ≤ Index.maxMessages)
    (hfits : base + memoryBytesWith t c (messageBytes t c.messageDataSize) < 2 ^ 64) :
    Placed base (base + memoryBytesWith t c (messageBytes t c.messageDataSize)) (objects t c base) := by
  have hend : base + memoryBytesWith t c (messageBytes t c.messageDataSize) = base + t.memory.size + sizeOfQueue t c +
      sizeOfMessages t c + sizeOfWatchers t c + sizeOfSenders t c + sizeOfPinners t c := by
    rw [memoryBytesWith, h.queue, h.messages, h.watchers, h.senders, h.pinners]
    omega
  rw [hend] at hfits ⊢
  have hqueue : kDataAlignment ∣ base + t.memory.size := dvd_add hbase t.dvd_memory_size
  have hmessages := dvd_add hqueue (h.queue ▸ dvd_roundUp kDataAlignment (t.atomicIndex.size * c.queueSize))
  have hwatchers := dvd_add hmessages (h.sizeOfMessages_eq ▸ dvd_roundUp kDataAlignment _)
  have hsenders := dvd_add hwatchers (h.watchers ▸ dvd_roundUp kDataAlignment (t.watcher.size * c.numWatchers))
  have hpinners := dvd_add hsenders (h.senders ▸ dvd_roundUp kDataAlignment (t.sender.size * c.numSenders))
  have hqueueRoom : t.atomicIndex.size * c.queueSize ≤ sizeOfQueue t c := h.queue ▸ le_up _
  have hwatchersRoom : t.watcher.size * c.numWatchers ≤ sizeOfWatchers t c := h.watchers ▸ le_up _
  have hsendersRoom : t.sender.size * c.numSenders ≤ sizeOfSenders t c := h.senders ▸ le_up _
  have hpinnersRoom : t.pinner.size * c.numPinners ≤ sizeOfPinners t c := h.pinners ▸ le_up _
  have hheader : Placed base (base + t.memory.size) [(t.memory.align, ⟨base, t.memory.size⟩)] :=
    ⟨Packed.single _ _, by simpa using t.memory.align_dvd.trans hbase⟩
  have hqueuePlaced := Placed.elements (getQueue t base) (t.atomicIndex.align_dvd.trans hqueue)
    (fun _ => t.atomicIndex.align_dvd_size) hqueueRoom fun i hi => h.getQueue_eq hmax (by omega) hi
  have hmessagesPlaced := Placed.elements (fun i => getMessage t c base (.ofParts 0 i))
    (t.message.align_dvd.trans hmessages) (fun hpos => h.dvd_messageSize (h.numMessages_eq ▸ hpos))
    (h.sizeOfMessages_eq ▸ le_up _) fun i hi => h.getMessage_eq hmax (by omega) hi
  have hwatchersPlaced := Placed.elements (getWatcher t c base) (t.watcher.align_dvd.trans hwatchers)
    (fun _ => t.watcher.align_dvd_size) hwatchersRoom fun i hi => sizeT_element hi hwatchersRoom (by omega)
  have hsendersPlaced := Placed.elements (getSender t c base) (t.sender.align_dvd.trans hsenders)
    (fun _ => t.sender.align_dvd_size) hsendersRoom fun i hi => sizeT_element hi hsendersRoom (by omega)
  have hpinnersPlaced := Placed.elements (getPinner t c base) (t.pinner.align_dvd.trans hpinners)
    (fun _ => t.pinner.align_dvd_size) hpinnersRoom fun i hi => sizeT_element hi hpinnersRoom (by omega)
  exact ((((hheader.append (by omega) hqueuePlaced).append (by omega) hmessagesPlaced).append (by omega)
    hwatchersPlaced).append (by omega) hsendersPlaced).append (by omega) hpinnersPlaced

theorem MessageFits.of_lt (t : QueueTypes) {message dataSize : Nat}
    (h : message + messageBytes t dataSize < 2 ^ 64) : MessageFits t message dataSize (messageBytes t dataSize) := by
  have hle := le_up (dataSize + kChannelDataRedzone * 2 + (kChannelDataAlignment - 1))
  have hlt := roundUp_lt (show 0 < kDataAlignment by decide)
    (dataSize + kChannelDataRedzone * 2 + (kChannelDataAlignment - 1))
  have hbytes : messageBytes t dataSize =
      roundUp kDataAlignment (dataSize + kChannelDataRedzone * 2 + (kChannelDataAlignment - 1)) + t.message.size := rfl
  simp only [kChannelDataRedzone, kChannelDataAlignment, kDataAlignment] at hle hlt hbytes
  -- the data starts 32 to 95 bytes after the header and ends at a multiple of 64
  obtain ⟨hdvd, hdata, hdata'⟩ : 64 ∣ messageData t message dataSize + dataSize ∧
      message + t.message.size + 32 ≤ messageData t message dataSize ∧
      messageData t message dataSize < message + t.message.size + 96 := by
    simp only [messageData, roundChannelData, sizeT, kChannelDataRedzone, kChannelDataAlignment]
    omega
  generalize messageBytes t dataSize = bytes at *
  refine ⟨hdvd, ⟨⟨message + t.message.size, messageData t message dataSize - (message + t.message.size)⟩, ?_, ?_, rfl,
    ?_⟩, ⟨⟨messageData t message dataSize + dataSize,
      message + bytes - (messageData t message dataSize + dataSize)⟩, ?_, ?_, rfl, ?_⟩⟩
  · have hstart : sizeT (message + t.message.size) = message + t.message.size := sizeT_eq (by omega)
    have hsize : sizeT (messageData t message dataSize + 2 ^ 64 - (message + t.message.size)) =
        messageData t message dataSize - (message + t.message.size) := by
      rw [sizeT]
      omega
    rw [preRedzone, hstart]
    simp only [hsize]
    exact if_pos (by simp only [kChannelDataRedzone, kChannelDataAlignment]; omega)
  · show 32 ≤ messageData t message dataSize - (message + t.message.size)
    omega
  · show message + t.message.size + (messageData t message dataSize - (message + t.message.size)) = _
    omega
  · rw [postRedzone, sizeT_eq h, sizeT_eq (by omega)]
    have hroom : message + bytes - (messageData t message dataSize + dataSize) <
        kChannelDataRedzone + kChannelDataAlignment * 2 := by
      simp only [kChannelDataRedzone, kChannelDataAlignment]
      omega
    rw [if_pos (by omega), if_pos (by omega), if_pos hroom]
  · show 32 ≤ message + bytes - (messageData t message dataSize + dataSize)
    omega
  · show messageData t message dataSize + dataSize +
      (message + bytes - (messageData t message dataSize + dataSize)) = _
    omega

/-- With as many messages as an `Index` can tell apart, and as long as nothing wraps around, everything is aligned and inside
of the `LocklessQueueMemorySize` bytes, nothing overlaps, and each message's data is between its redzones. -/
theorem locklessQueue_layout (t : QueueTypes) (c : LocklessQueueConfiguration) (base : Nat)
    (hbase : kDataAlignment ∣ base) (hmax : numMessages c ≤ Index.maxMessages)
    (hfits : base + memoryBytes t c < 2 ^ 64) :
    ∃ size, locklessQueueMemorySize t c = .ok size ∧ Packed base (base + size) ((objects t c base).map Prod.snd) ∧
      (∀ o ∈ objects t c base, o.1 ∣ o.2.start) ∧
      ∀ i < numMessages c, MessageFits t (getMessage t c base (.ofParts 0 i)) c.messageDataSize (messageSize t c) := by
  have hle : memoryBytesWith t c (messageBytes t c.messageDataSize) ≤ memoryBytes t c :=
    memoryBytesWith_mono (messageBytes_mono (le_up _))
  have hexact : Exact t c := Exact.of_lt (by omega)
  have hplaced := hexact.placed hbase hmax (by omega)
  refine ⟨_, locklessQueueMemorySize_eq (by omega), hplaced.packed.mono (by omega), hplaced.aligned, fun i hi => ?_⟩
  have hpos : 0 < c.toConfiguration.numMessages := by
    rw [← hexact.numMessages_eq]
    omega
  have hmem : (t.message.align, ⟨getMessage t c base (.ofParts 0 i), messageSize t c⟩) ∈ objects t c base := by
    simp only [objects, mem_append]
    exact .inl (.inl (.inl (.inr (mem_map.mpr ⟨i, mem_range.mpr hi, rfl⟩))))
  have hinside : getMessage t c base (.ofParts 0 i) + messageSize t c ≤ _ :=
    (hplaced.packed.inside _ (mem_map_of_mem hmem)).2
  rw [hexact.messageSize_eq hpos] at hinside ⊢
  exact MessageFits.of_lt t (by omega)

def exampleTypes : QueueTypes where
  memory := ⟨128, 16, by decide, by decide, by decide⟩
  atomicIndex := ⟨4, 4, by decide, by decide, by decide⟩
  message := ⟨72, 8, by decide, by decide, by decide⟩
  watcher := ⟨24, 8, by decide, by decide, by decide⟩
  sender := ⟨24, 8, by decide, by decide, by decide⟩
  pinner := ⟨24, 8, by decide, by decide, by decide⟩
  memory_align := rfl

/-- Data of 1000 bytes, which is no multiple of 64. -/
theorem locklessQueue_layout_small : ∃ size,
    locklessQueueMemorySize exampleTypes ⟨⟨2, 1, 100, 1000⟩, 3⟩ = .ok size ∧
      Packed 4096 (4096 + size) ((objects exampleTypes ⟨⟨2, 1, 100, 1000⟩, 3⟩ 4096).map Prod.snd) := by
  obtain ⟨size, hsize, hpacked, -⟩ := locklessQueue_layout exampleTypes ⟨⟨2, 1, 100, 1000⟩, 3⟩ 4096 (by decide)
    (by decide) (by decide)
  exact ⟨size, hsize, hpacked⟩

/-- One message more than the 16 bits of an `Index` can tell apart is the first message again. -/
theorem locklessQueue_layout_aliases :
    (∃ size, locklessQueueMemorySize exampleTypes ⟨⟨0, 0, 65537, 1000⟩, 0⟩ = .ok size ∧ 4096 + size < 2 ^ 64) ∧
      ¬ ((objects exampleTypes ⟨⟨0, 0, 65537, 1000⟩, 0⟩ 4096).map Prod.snd).Pairwise Range.Disjoint := by
  refine ⟨⟨_, locklessQueueMemorySize_eq (by decide), by decide⟩, fun hdisjoint => ?_⟩
  simp only [objects, map_append] at hdisjoint
  have hmessages := (pairwise_append.mp (pairwise_append.mp (pairwise_append.mp
    (pairwise_append.mp hdisjoint).1).1).1).2.1
  rw [elements, map_map, pairwise_map] at hmessages
  have halias := pairwise_iff_getElem.mp hmessages 0 65536 (by simp; decide) (by simp; decide) (by decide)
  rw [getElem_range, getElem_range] at halias
  revert halias
  unfold Range.Disjoint
  decide

end RobotCode.IpcLib
