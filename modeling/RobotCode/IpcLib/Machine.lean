import RobotCode.IpcLib.Memory
import RobotCode.Lib.Transition

/-!
# Senders, pinners and readers, one shared access at a time

The code that runs against a `Memory` at the same time: `LocklessQueueSender::Send` with the pinner
swap it ends in, `LocklessQueuePinner::PinIndex` and `LocklessQueueReader::Read`. Each process is a
program counter with the local variables of the source, and one step does one load, store or
compare-exchange of shared memory. Any process may be scheduled next, and a process that is never
scheduled again has stopped; `kill` also marks its slot the way the kernel does.

The model is the optimised build, where the debug checks are not compiled in. A failing `CHECK` or a
division by zero stops the process that runs into it: it has no step.

`History` is bookkeeping that no process reads. It counts the exchanges of each location, which is how
a value that left and came back is told from one that stayed, and it keeps the list of messages that
were exchanged into the queue.
-/

namespace RobotCode.IpcLib

open Function

open QueueIndex

/-! ### The local state of a process -/

/-- The arguments of `Send`. -/
structure SendArgs where
  length : Nat
  monotonicRemoteTime : Int
  realtimeRemoteTime : Int
  remoteQueueIndex : Nat
  sourceBootUuid : Uuid
  deriving DecidableEq, Repr

/-- What `Send` hands back: failure, or the two times and the queue index of the sent message. -/
inductive SendResult where
  | failed
  | sent (monotonicSentTime realtimeSentTime : Int) (queueIndex : Nat)
  deriving DecidableEq, Repr

/-- Where a sender is. `filling` is the user writing to the pointer from `Data`, the rest is the body of `Send` in order; from
`swapLoadQueueIndex` on it is `SwapPinnedSenderScratch`. -/
inductive SendPc where
  | idle
  | filling
  | loadScratch
  | checkRedzones
  | storeLength
  | storeRemoteQueueIndex
  | storeSourceBootUuid
  | storeMonotonicRemoteTime
  | storeRealtimeRemoteTime
  | loadNextQueueIndex
  | loadToReplace
  | fixNextQueueIndex
  | loadPreviousIndex
  | storeMonotonicSentTime
  | storeRealtimeSentTime
  | loadMonotonicSentTime
  | loadRealtimeSentTime
  | storeScratchIndex
  | storeQueueIndex
  | storeToReplace
  | exchange
  | abandonExchange
  | advanceNextQueueIndex
  | adoptScratch
  | clearToReplace
  | swapLoadQueueIndex
  | swapScan
  | swapLoadPinnerScratch
  | swapLoadPinnerQueueIndex
  | swapPinnerScan
  | swapStoreToReplace
  | swapExchange
  | swapAbandonExchange
  | swapAdoptScratch
  | swapClearToReplace
  | invalidateQueueIndex
  deriving DecidableEq, Repr

structure SenderProc where
  pc : SendPc
  args : SendArgs
  data : Nat
  scratch : Index
  actual : QueueIndex
  toReplace : Index
  monotonicSent : Int
  realtimeSent : Int
  pinnerIndex : Nat
  wanted : Nat
  scan : Nat
  pinnerScratch : Index
  newScratch : Index
  result : Option SendResult
  /-- History: the payload when `Send` was called, and what the counters were at the loads. -/
  payload : Nat → UInt8
  hintSeen : Nat
  dueSeen : Nat
  sentSeen : Nat
  swapsSeen : Nat

namespace SenderProc

variable (p : SenderProc)

def nextQueueIndex : QueueIndex := zeroOrValid p.actual

def decrementedQueueIndex : QueueIndex := p.nextQueueIndex.decrementBy p.actual.count

def indexToWrite : Index := .ofParts p.nextQueueIndex.index p.scratch.messageIndex

def slot : Nat := p.nextQueueIndex.wrapped

end SenderProc

inductive PinPc where
  | idle
  | storePinned
  | loadSlot
  | loadQueueIndex
  | unpin
  | held
  | releasePinned
  | releaseTid
  deriving DecidableEq, Repr

structure PinnerProc where
  pc : PinPc
  request : Nat
  queueIndex : QueueIndex
  messageIndex : Index
  result : Int
  /-- History: the number of messages sent when `PinIndex` was called, and the slot's counter at the load. -/
  startedAt : Nat
  dueSeen : Nat

inductive ReadResult where
  | tooOld
  | good
  | nothingNew
  | overwrote
  deriving DecidableEq, Repr

inductive ReadPc where
  | idle
  | loadIndex
  | loadStartingQueueIndex
  | reloadMessage
  | readMonotonicSentTime
  | readRealtimeSentTime
  | testRemoteQueueIndex
  | readRemoteQueueIndex
  | readMonotonicRemoteTime
  | readRealtimeRemoteTime
  | readSourceBootUuid
  | readData
  | readLength
  | loadFinalQueueIndex
  | done
  deriving DecidableEq, Repr

/-- The outputs of `Read`. -/
structure ReadOutput where
  monotonicSentTime : Int
  realtimeSentTime : Int
  monotonicRemoteTime : Int
  realtimeRemoteTime : Int
  remoteQueueIndex : Nat
  sourceBootUuid : Uuid
  length : Nat
  data : Nat → UInt8

structure ReaderProc where
  pc : ReadPc
  /-- The argument of `Read`, and whether it was given somewhere to copy the payload to. -/
  request : Nat
  wantData : Bool
  queueIndex : QueueIndex
  message : Nat
  starting : Nat
  copied : Nat
  out : ReadOutput
  result : ReadResult
  /-- History: the number of messages sent when `Read` was called, and the slot's counter at the load. -/
  startedAt : Nat
  dueSeen : Nat

/-- One exchange into the queue: whose it was, what `Send` was called with, and the message as it
stood in memory at that moment. -/
structure SendRecord where
  sender : Nat
  args : SendArgs
  payload : Nat → UInt8
  queueIndex : Nat
  messageIndex : Nat
  message : Message

structure History where
  sent : List SendRecord
  due : Nat → Nat
  hint : Nat
  number : Nat → Option Nat
  /-- How many messages had been sent when a message last left the queue. -/
  leftAt : Nat → Nat
  swaps : Nat → Nat
  exchanges : Nat
  acquired : Nat → Nat

structure State where
  memory : Memory
  sender : Nat → SenderProc
  pinner : Nat → PinnerProc
  reader : Nat → ReaderProc
  monotonicNow : Int
  realtimeNow : Int
  history : History

def initialSender : SenderProc where
  pc := .idle
  args := ⟨0, 0, 0, 0, Vector.replicate 16 0⟩
  data := 0
  scratch := .invalid
  actual := .invalid
  toReplace := .invalid
  monotonicSent := 0
  realtimeSent := 0
  pinnerIndex := 0
  wanted := 0
  scan := 0
  pinnerScratch := .invalid
  newScratch := .invalid
  result := none
  payload := fun _ => 0
  hintSeen := 0
  dueSeen := 0
  sentSeen := 0
  swapsSeen := 0

def initialPinner : PinnerProc := ⟨.idle, 0, .invalid, .invalid, -1, 0, 0⟩

def initialReader : ReaderProc where
  pc := .idle
  request := 0
  wantData := false
  queueIndex := .invalid
  message := 0
  starting := 0
  copied := 0
  out := ⟨0, 0, 0, 0, 0, Vector.replicate 16 0, 0, fun _ => 0⟩
  result := .nothingNew
  startedAt := 0
  dueSeen := 0

def initialState (c : Configuration) : State where
  memory := initialMemory c
  sender := fun _ => initialSender
  pinner := fun _ => initialPinner
  reader := fun _ => initialReader
  monotonicNow := 0
  realtimeNow := 0
  history :=
    { sent := []
      due := fun j => j
      hint := 0
      number := fun _ => none
      leftAt := fun _ => 0
      swaps := fun _ => 0
      exchanges := 0
      acquired := fun _ => 0 }

/-! ### One access of a sender -/

/-- The store of a sender's step. `field` is any store to a message except the one to the queue index in its header. -/
inductive Write where
  | none
  | nextQueueIndex (value : Nat)
  | slot (j : Nat) (value : Index)
  | field (k : Nat) (store : Message → Message)
  | queueIndex (k : Nat) (value : Nat)
  | scratchIndex (value : Index)
  | toReplace (value : Index)
  | pinnerScratch (p : Nat) (value : Index)

variable (c : Configuration) (s : State)

/-- What sender `i` does next in `Send`: its local state afterwards and the store it performs. -/
def senderNext (i : Nat) : Option (SenderProc × Write) :=
  let p := s.sender i
  let m := s.memory
  let message := p.scratch.messageIndex
  match p.pc with
  | .idle | .filling => none
  | .loadScratch => some ({ p with scratch := (m.senders i).scratchIndex, pc := .checkRedzones }, .none)
  | .checkRedzones =>
    if (m.messages message).redzonesCorrupt then some ({ p with result := some .failed, pc := .idle }, .none)
    else some ({ p with pc := .storeLength }, .none)
  | .storeLength =>
    some ({ p with pc := .storeRemoteQueueIndex }, .field message fun x => { x with length := p.args.length })
  | .storeRemoteQueueIndex =>
    some ({ p with pc := .storeSourceBootUuid },
      .field message fun x => { x with remoteQueueIndex := p.args.remoteQueueIndex })
  | .storeSourceBootUuid =>
    some ({ p with pc := .storeMonotonicRemoteTime },
      .field message fun x => { x with sourceBootUuid := p.args.sourceBootUuid })
  | .storeMonotonicRemoteTime =>
    some ({ p with pc := .storeRealtimeRemoteTime },
      .field message fun x => { x with monotonicRemoteTime := p.args.monotonicRemoteTime })
  | .storeRealtimeRemoteTime =>
    some ({ p with pc := .loadNextQueueIndex },
      .field message fun x => { x with realtimeRemoteTime := p.args.realtimeRemoteTime })
  | .loadNextQueueIndex =>
    some ({ p with actual := ⟨m.nextQueueIndex, c.queueSize⟩, hintSeen := s.history.hint, pc := .loadToReplace },
      .none)
  | .loadToReplace =>
    -- An empty queue divides by zero here.
    if c.queueSize = 0 then none
    else
      let toReplace := m.queue p.slot
      some ({ p with
        toReplace := toReplace
        dueSeen := s.history.due p.slot
        sentSeen := s.history.sent.length
        pc := if toReplace.IsPlausible p.decrementedQueueIndex then .loadPreviousIndex else .fixNextQueueIndex },
        .none)
  | .fixNextQueueIndex =>
    some ({ p with pc := .loadNextQueueIndex },
      if m.nextQueueIndex = p.actual.index then .nextQueueIndex p.nextQueueIndex.increment.index else .none)
  | .loadPreviousIndex =>
    let previous := (m.messages p.toReplace.messageIndex).queueIndex
    some ({ p with
      pc := if previous ≠ p.decrementedQueueIndex.index ∧ previous ≠ invalid.index
        then .loadNextQueueIndex else .storeMonotonicSentTime }, .none)
  | .storeMonotonicSentTime =>
    some ({ p with pc := .storeRealtimeSentTime },
      .field message fun x => { x with monotonicSentTime := s.monotonicNow })
  | .storeRealtimeSentTime =>
    some ({ p with pc := .loadMonotonicSentTime },
      .field message fun x => { x with realtimeSentTime := s.realtimeNow })
  | .loadMonotonicSentTime =>
    some ({ p with monotonicSent := (m.messages message).monotonicSentTime, pc := .loadRealtimeSentTime }, .none)
  | .loadRealtimeSentTime =>
    some ({ p with realtimeSent := (m.messages message).realtimeSentTime, pc := .storeScratchIndex }, .none)
  | .storeScratchIndex => some ({ p with pc := .storeQueueIndex }, .scratchIndex p.indexToWrite)
  | .storeQueueIndex => some ({ p with pc := .storeToReplace }, .queueIndex message p.nextQueueIndex.index)
  | .storeToReplace => some ({ p with pc := .exchange }, .toReplace p.toReplace)
  | .exchange =>
    if m.queue p.slot = p.toReplace then
      some ({ p with pc := .advanceNextQueueIndex }, .slot p.slot p.indexToWrite)
    else some ({ p with pc := .abandonExchange }, .none)
  | .abandonExchange => some ({ p with pc := .loadNextQueueIndex }, .toReplace .invalid)
  | .advanceNextQueueIndex =>
    some ({ p with pc := .adoptScratch },
      if m.nextQueueIndex = p.actual.index then .nextQueueIndex p.nextQueueIndex.increment.index else .none)
  | .adoptScratch => some ({ p with pc := .clearToReplace }, .scratchIndex p.toReplace)
  | .clearToReplace => some ({ p with pinnerIndex := 0, pc := .swapLoadQueueIndex }, .toReplace .invalid)
  | .swapLoadQueueIndex =>
    let wanted := (m.messages p.toReplace.messageIndex).queueIndex
    if wanted = invalid.index then
      some ({ p with newScratch := p.toReplace, pc := .invalidateQueueIndex }, .none)
    else some ({ p with wanted := wanted, scan := 0, pc := .swapScan }, .none)
  | .swapScan =>
    if p.scan < c.numPinners then
      if (m.pinners p.scan).pinned = p.wanted then some ({ p with pc := .swapLoadPinnerScratch }, .none)
      else some ({ p with scan := p.scan + 1 }, .none)
    else some ({ p with newScratch := p.toReplace, pc := .invalidateQueueIndex }, .none)
  | .swapLoadPinnerScratch =>
    let pinnerScratch := (m.pinners p.pinnerIndex).scratchIndex
    -- The pinner's scratch index should always be valid.
    if pinnerScratch.Valid then
      some ({ p with
        pinnerScratch := pinnerScratch
        swapsSeen := s.history.swaps p.pinnerIndex
        pc := .swapLoadPinnerQueueIndex }, .none)
    else none
  | .swapLoadPinnerQueueIndex =>
    let wanted := (m.messages p.pinnerScratch.messageIndex).queueIndex
    if wanted = invalid.index then some ({ p with pc := .swapStoreToReplace }, .none)
    else some ({ p with wanted := wanted, scan := 0, pc := .swapPinnerScan }, .none)
  | .swapPinnerScan =>
    if p.scan < c.numPinners then
      if (m.pinners p.scan).pinned = p.wanted then
        some ({ p with pinnerIndex := (p.pinnerIndex + 1) % c.numPinners, pc := .swapLoadQueueIndex }, .none)
      else some ({ p with scan := p.scan + 1 }, .none)
    else some ({ p with pc := .swapStoreToReplace }, .none)
  | .swapStoreToReplace => some ({ p with pc := .swapExchange }, .toReplace p.pinnerScratch)
  | .swapExchange =>
    if (m.pinners p.pinnerIndex).scratchIndex = p.pinnerScratch then
      some ({ p with pc := .swapAdoptScratch }, .pinnerScratch p.pinnerIndex p.toReplace)
    else some ({ p with pc := .swapAbandonExchange }, .none)
  | .swapAbandonExchange =>
    some ({ p with pinnerIndex := (p.pinnerIndex + 1) % c.numPinners, pc := .swapLoadQueueIndex },
      .toReplace .invalid)
  | .swapAdoptScratch => some ({ p with pc := .swapClearToReplace }, .scratchIndex p.pinnerScratch)
  | .swapClearToReplace =>
    some ({ p with newScratch := p.pinnerScratch, pc := .invalidateQueueIndex }, .toReplace .invalid)
  | .invalidateQueueIndex =>
    some ({ p with
      result := some (.sent p.monotonicSent p.realtimeSent p.nextQueueIndex.index)
      pc := .idle }, .queueIndex p.newScratch.messageIndex invalid.index)

/-- The record of the exchange that sender `i` is about to do. -/
def State.record (i : Nat) : SendRecord where
  sender := i
  args := (s.sender i).args
  payload := (s.sender i).payload
  queueIndex := (s.sender i).nextQueueIndex.index
  messageIndex := (s.sender i).scratch.messageIndex
  message := s.memory.messages (s.sender i).scratch.messageIndex

/-- Perform the store of sender `i`, and keep the history. -/
def State.store (c : Configuration) (s : State) (i : Nat) : Write → State
  | .none => s
  | .nextQueueIndex value =>
    { s with
      memory := { s.memory with nextQueueIndex := value }
      history := { s.history with hint := s.history.hint + 1 } }
  | .slot j value =>
    { s with
      memory := s.memory.setSlot j value
      history :=
        { s.history with
          sent := s.history.sent ++ [s.record i]
          due := update s.history.due j (s.history.due j + c.queueSize)
          leftAt := update s.history.leftAt (s.memory.queue j).messageIndex
            (s.history.sent.length + 1)
          exchanges := s.history.exchanges + 1
          acquired := update s.history.acquired i (s.history.exchanges + 1) } }
  | .field k store => { s with memory := s.memory.setMessage k store }
  | .queueIndex k value =>
    { s with
      memory := s.memory.setMessage k fun x => { x with queueIndex := value }
      history :=
        { s.history with
          number := update s.history.number k
            (if value = invalid.index then Option.none else some (s.sender i).hintSeen) } }
  | .scratchIndex value => { s with memory := s.memory.setSender i fun x => { x with scratchIndex := value } }
  | .toReplace value => { s with memory := s.memory.setSender i fun x => { x with toReplace := value } }
  | .pinnerScratch p value =>
    { s with
      memory := s.memory.setPinner p fun x => { x with scratchIndex := value }
      history :=
        { s.history with
          swaps := update s.history.swaps p (s.history.swaps p + 1)
          exchanges := s.history.exchanges + 1
          acquired := update s.history.acquired i (s.history.exchanges + 1) } }

@[simps -fullyApplied] def State.setSender (i : Nat) (p : SenderProc) : State :=
  { s with sender := update s.sender i p }

@[simps -fullyApplied] def State.setPinner (i : Nat) (p : PinnerProc) : State :=
  { s with pinner := update s.pinner i p }

@[simps -fullyApplied] def State.setReader (i : Nat) (p : ReaderProc) : State :=
  { s with reader := update s.reader i p }

def senderStep (i : Nat) : Option State :=
  (senderNext c s i).map fun next => (s.store c i next.2).setSender i next.1

/-- One step of `PinIndex`, or of the destructor. A pinner writes only its own slot. -/
def pinnerStep (i : Nat) : Option State :=
  let p := s.pinner i
  match p.pc with
  | .idle | .held => none
  | .storePinned =>
    some ({ s with memory := s.memory.setPinner i fun x => { x with pinned := p.queueIndex.index } }.setPinner i
      { p with pc := .loadSlot })
  | .loadSlot =>
    some (s.setPinner i { p with
      messageIndex := s.memory.queue p.queueIndex.wrapped
      dueSeen := s.history.due p.queueIndex.wrapped
      pc := .loadQueueIndex })
  | .loadQueueIndex =>
    if (s.memory.messages p.messageIndex.messageIndex).queueIndex = p.queueIndex.index then
      some (s.setPinner i { p with result := p.messageIndex.messageIndex, pc := .held })
    else some (s.setPinner i { p with pc := .unpin })
  | .unpin =>
    some ({ s with memory := s.memory.setPinner i fun x => { x with pinned := invalid.index } }.setPinner i
      { p with result := -1, pc := .idle })
  | .releasePinned =>
    some ({ s with memory := s.memory.setPinner i fun x => { x with pinned := invalid.index } }.setPinner i
      { p with pc := .releaseTid })
  | .releaseTid =>
    some ({ s with memory := s.memory.setPinner i fun x => { x with tid := .free } }.setPinner i
      { p with pc := .idle })

/-- One step of `Read`: the reader's local state afterwards. A reader writes nothing shared. -/
def readerNext (p : ReaderProc) : Option ReaderProc :=
  let x := s.memory.messages p.message
  match p.pc with
  | .idle | .done => none
  | .loadIndex =>
    some { p with
      message := (s.memory.queue p.queueIndex.wrapped).messageIndex
      dueSeen := s.history.due p.queueIndex.wrapped
      pc := .loadStartingQueueIndex }
  | .loadStartingQueueIndex =>
    if x.queueIndex ≠ p.queueIndex.index then
      if x.queueIndex = (p.queueIndex.decrementBy c.queueSize).index then
        some { p with starting := x.queueIndex, result := .nothingNew, pc := .done }
      else some { p with starting := x.queueIndex, pc := .reloadMessage }
    else some { p with starting := x.queueIndex, pc := .readMonotonicSentTime }
  | .reloadMessage =>
    let message := (s.memory.queue p.queueIndex.wrapped).messageIndex
    if p.message ≠ message then
      some { p with
        message := message
        dueSeen := s.history.due p.queueIndex.wrapped
        pc := .loadStartingQueueIndex }
    else if p.starting ≠ invalid.index then some { p with result := .tooOld, pc := .done }
    else if p.request < c.queueSize then some { p with result := .nothingNew, pc := .done }
    else some { p with result := .tooOld, pc := .done }
  | .readMonotonicSentTime =>
    some { p with out.monotonicSentTime := x.monotonicSentTime, pc := .readRealtimeSentTime }
  | .readRealtimeSentTime =>
    some { p with out.realtimeSentTime := x.realtimeSentTime, pc := .testRemoteQueueIndex }
  | .testRemoteQueueIndex =>
    if x.remoteQueueIndex = 0xffffffff then
      some { p with out.remoteQueueIndex := p.queueIndex.index, pc := .readMonotonicRemoteTime }
    else some { p with pc := .readRemoteQueueIndex }
  | .readRemoteQueueIndex =>
    some { p with out.remoteQueueIndex := x.remoteQueueIndex, pc := .readMonotonicRemoteTime }
  | .readMonotonicRemoteTime =>
    some { p with out.monotonicRemoteTime := x.monotonicRemoteTime, pc := .readRealtimeRemoteTime }
  | .readRealtimeRemoteTime =>
    some { p with out.realtimeRemoteTime := x.realtimeRemoteTime, pc := .readSourceBootUuid }
  | .readSourceBootUuid =>
    some { p with
      out.sourceBootUuid := x.sourceBootUuid
      copied := 0
      pc := if p.wantData then .readData else .readLength }
  | .readData =>
    if p.copied < c.messageDataSize then
      some { p with
        out.data := update p.out.data p.copied (x.data p.copied)
        copied := p.copied + 1 }
    else some { p with pc := .readLength }
  | .readLength => some { p with out.length := x.length, pc := .loadFinalQueueIndex }
  | .loadFinalQueueIndex =>
    some { p with
      result := if x.queueIndex ≠ p.queueIndex.index then .overwrote else .good
      pc := .done }

/-- Who moves. A process owns a slot by `makeSender` or `makePinner`; `kill` ends it anywhere. `overrun` is a user writing
outside the buffer it was given. -/
inductive Action where
  | makeSender (i : Nat)
  | releaseSender (i : Nat)
  | killSender (i : Nat)
  | data (i : Nat)
  | writeData (i : Nat) (offset : Nat) (byte : UInt8)
  | send (i : Nat) (args : SendArgs)
  | sender (i : Nat)
  | makePinner (i : Nat)
  | releasePinner (i : Nat)
  | killPinner (i : Nat)
  | pinIndex (i : Nat) (queueIndex : Nat)
  | pinner (i : Nat)
  | read (i : Nat) (queueIndex : Nat) (wantData : Bool)
  | reader (i : Nat)
  | tick (dt : Nat)
  | setRealtime (time : Int)
  | overrun (k : Nat)

def SendPc.Outside (pc : SendPc) : Prop := pc = .idle ∨ pc = .filling

instance (pc : SendPc) : Decidable pc.Outside := inferInstanceAs (Decidable (_ ∨ _))

/-- Nobody died, so the cleanup that a constructor runs first has nothing to do. -/
def Memory.NobodyDied (m : Memory) : Prop :=
  (∀ i < c.numSenders, (m.senders i).tid ≠ .died) ∧ ∀ i < c.numPinners, (m.pinners i).tid ≠ .died

instance (c : Configuration) (m : Memory) : Decidable (m.NobodyDied c) :=
  inferInstanceAs (Decidable (_ ∧ _))

@[simps! -fullyApplied]
def State.setTid (i : Nat) (tid : Tid) : State :=
  { s with memory := s.memory.setSender i fun x => { x with tid := tid } }

def step : Action → Option State
  | .makeSender i =>
    if i < c.numSenders ∧ s.memory.NobodyDied c ∧ (s.memory.senders i).tid = .free ∧
        ∀ k < i, (s.memory.senders k).tid ≠ .free then
      some ((s.setTid i .held).setSender i { s.sender i with pc := .idle })
    else none
  | .releaseSender i =>
    if i < c.numSenders ∧ (s.memory.senders i).tid = .held ∧ (s.sender i).pc.Outside then
      some ((s.setTid i .free).setSender i { s.sender i with pc := .idle })
    else none
  | .killSender i => if i < c.numSenders ∧ (s.memory.senders i).tid = .held then some (s.setTid i .died) else none
  | .data i =>
    if i < c.numSenders ∧ (s.memory.senders i).tid = .held ∧ (s.sender i).pc.Outside then
      some (s.setSender i { s.sender i with
        data := (s.memory.senders i).scratchIndex.messageIndex, pc := .filling })
    else none
  | .writeData i offset byte =>
    if i < c.numSenders ∧ (s.memory.senders i).tid = .held ∧ (s.sender i).pc = .filling ∧
        offset < c.messageDataSize then
      some (s.store c i (.field (s.sender i).data fun x => { x with data := update x.data offset byte }))
    else none
  | .send i args =>
    if i < c.numSenders ∧ (s.memory.senders i).tid = .held ∧ (s.sender i).pc.Outside ∧
        args.length ≤ c.messageDataSize then
      some (s.setSender i { s.sender i with
        args := args
        payload := (s.memory.messages (s.memory.senders i).scratchIndex.messageIndex).data
        pc := .loadScratch })
    else none
  | .sender i => if i < c.numSenders ∧ (s.memory.senders i).tid = .held then senderStep c s i else none
  | .makePinner i =>
    if i < c.numPinners ∧ s.memory.NobodyDied c ∧ (s.memory.pinners i).tid = .free ∧
        ∀ k < i, (s.memory.pinners k).tid ≠ .free then
      some ({ s with
        memory := s.memory.setPinner i fun x => { x with pinned := invalid.index, tid := .held }
          }.setPinner i { s.pinner i with pc := .idle })
    else none
  | .releasePinner i =>
    if i < c.numPinners ∧ (s.memory.pinners i).tid = .held ∧
        ((s.pinner i).pc = .idle ∨ (s.pinner i).pc = .held) then
      some (s.setPinner i { s.pinner i with pc := .releasePinned })
    else none
  | .killPinner i =>
    if i < c.numPinners ∧ (s.memory.pinners i).tid = .held then
      some { s with memory := s.memory.setPinner i fun x => { x with tid := .died } }
    else none
  | .pinIndex i queueIndex =>
    if i < c.numPinners ∧ (s.memory.pinners i).tid = .held ∧ queueIndex < 2 ^ 32 ∧ 0 < c.queueSize ∧
        ((s.pinner i).pc = .idle ∨ (s.pinner i).pc = .held) then
      some (s.setPinner i { s.pinner i with
        request := queueIndex
        queueIndex := (zero c.queueSize).incrementBy queueIndex
        startedAt := s.history.sent.length
        pc := .storePinned })
    else none
  | .pinner i => if i < c.numPinners ∧ (s.memory.pinners i).tid = .held then pinnerStep s i else none
  | .read i queueIndex wantData =>
    if queueIndex < 2 ^ 32 ∧ 0 < c.queueSize ∧ ((s.reader i).pc = .idle ∨ (s.reader i).pc = .done) then
      some (s.setReader i { s.reader i with
        request := queueIndex
        wantData := wantData
        queueIndex := (zero c.queueSize).incrementBy queueIndex
        startedAt := s.history.sent.length
        pc := .loadIndex })
    else none
  | .reader i => (readerNext c s (s.reader i)).map fun p => s.setReader i p
  | .tick dt => some { s with monotonicNow := s.monotonicNow + dt }
  | .setRealtime time => some { s with realtimeNow := time }
  | .overrun k => some { s with memory := s.memory.setMessage k fun x => { x with redzonesCorrupt := true } }

/-- No compare-exchange of an `Index` succeeds although the location was exchanged since the load. -/
def IndexNotReused : Action → Prop
  | .sender i =>
    ((s.sender i).pc = .exchange → s.memory.queue (s.sender i).slot = (s.sender i).toReplace →
      s.history.due (s.sender i).slot = (s.sender i).dueSeen) ∧
    ((s.sender i).pc = .swapExchange →
      (s.memory.pinners (s.sender i).pinnerIndex).scratchIndex = (s.sender i).pinnerScratch →
      s.history.swaps (s.sender i).pinnerIndex = (s.sender i).swapsSeen)
  | _ => True

/-- No compare-exchange of `nextQueueIndex` succeeds although it was exchanged since the load. -/
def NextNotReused : Action → Prop
  | .sender i => (s.sender i).pc = .fixNextQueueIndex ∨ (s.sender i).pc = .advanceNextQueueIndex →
      s.memory.nextQueueIndex = (s.sender i).actual.index → s.history.hint = (s.sender i).hintSeen
  | _ => True

/-- No exchange into the queue succeeds for a sender that was overtaken by a whole round of the queue indices between its
loads of `nextQueueIndex` and of the slot. -/
def NotLapped : Action → Prop
  | .sender i => (s.sender i).pc = .exchange → s.memory.queue (s.sender i).slot = (s.sender i).toReplace →
      (s.sender i).sentSeen + c.queueSize ≤ (s.sender i).hintSeen + c.maxIndex
  | _ => True

/-- The calls that end the pin of pinner `j`. -/
def Action.Unpins (j : Nat) : Action → Prop
  | .releasePinner i => i = j
  | .pinIndex i _ => i = j
  | _ => False

instance (s : State) (a : Action) : Decidable (IndexNotReused s a) := by
  cases a <;> first | exact .isTrue trivial | exact inferInstanceAs (Decidable (_ ∧ _))

instance (s : State) (a : Action) : Decidable (NextNotReused s a) := by
  cases a <;> first | exact .isTrue trivial | exact inferInstanceAs (Decidable (_ → _ → _))

instance (c : Configuration) (s : State) (a : Action) : Decidable (NotLapped c s a) := by
  cases a <;> first | exact .isTrue trivial | exact inferInstanceAs (Decidable (_ → _ → _))

instance (j : Nat) (a : Action) : Decidable (a.Unpins j) := by
  cases a <;> first | exact .isFalse id | exact inferInstanceAs (Decidable (_ = _))

abbrev Run (c : Configuration) (ok : State → Action → Prop) : State → State → Prop :=
  Transition.Run (step c) ok

end RobotCode.IpcLib
