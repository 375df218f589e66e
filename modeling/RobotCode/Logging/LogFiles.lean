import RobotCode.Lib.KeyedSet
import RobotCode.Lib.Pull
import RobotCode.Logging.Message

/-!
# Reading the log files of a node

The messages of one boot of a node are spread over the files of one or more sets of parts. A
`PartsMessageReader` reads the files of one set after another, a `LogPartsSorter` sorts what it reads, a
`NodeMerger` merges the sorters of all sets, and a `BootMerger` concatenates the boots.
-/

namespace RobotCode.Logging

/-- The checks of the readers that end the program. -/
inductive ReadCheck
  /-- "Max out of order exceeded" -/
  | outOfOrder
  /-- "Failed to find boot for node" -/
  | unknownBoot
  /-- A message before the last one that was returned. -/
  | backwards
  /-- Messages of different boots were compared. -/
  | differentBoots
  /-- Two copies of a message disagree on when its timestamp was logged. -/
  | timestampTimesDiffer
  /-- "Popping before calling Front()" -/
  | popBeforeFront
  deriving DecidableEq, Repr

structure LogFile where
  maxOutOfOrderDuration : Nat
  bootCounts : Nat → Option Nat := fun _ => none
  messages : List UnpackedMessageHeader

/-- What the files of a set of parts have in common. -/
structure LogParts where
  monotonicStartTime : Int
  bootCount : Nat
  loggerBootCount : Nat := 0
  sourceNodeIndex : Nat → Nat := fun _ => 0

structure MessageReader where
  maxOutOfOrderDuration : Nat
  bootCounts : Nat → Option Nat
  unread : List UnpackedMessageHeader
  newestTimestamp : Int

namespace MessageReader

def ofFile (f : LogFile) : MessageReader := ⟨f.maxOutOfOrderDuration, f.bootCounts, f.messages, minTime⟩

def readMessage (r : MessageReader) : Option UnpackedMessageHeader × MessageReader :=
  match r.unread with
  | [] => (none, r)
  | m :: rest =>
    (some m, { r with unread := rest, newestTimestamp := max r.newestTimestamp m.monotonicSentTime })

theorem unread_of_readMessage_none {r r' : MessageReader} (h : r.readMessage = (none, r')) : r.unread = [] := by
  rw [readMessage] at h
  split at h
  · assumption
  · cases h

theorem readMessage_some {r r' : MessageReader} {m : UnpackedMessageHeader} (h : r.readMessage = (some m, r')) :
    ∃ rest, r.unread = m :: rest ∧
      r' = { r with unread := rest, newestTimestamp := max r.newestTimestamp m.monotonicSentTime } := by
  rw [readMessage] at h
  split at h
  · cases h
  · next m' rest hunread =>
    obtain ⟨rfl, rfl⟩ : m' = m ∧ _ = r' := by simpa using h
    exact ⟨rest, hunread, rfl⟩

end MessageReader

structure PartsMessageReader where
  monotonicStartTime : Int
  messageReader : MessageReader
  nextParts : List LogFile
  done : Bool := false
  afterStart : Bool := false
  newestTimestamp : Int := minTime

namespace PartsMessageReader

def nextLog (r : PartsMessageReader) : PartsMessageReader :=
  match r.nextParts with
  | [] => { r with done := true }
  | f :: rest => { r with messageReader := .ofFile f, nextParts := rest }

def accept (r : PartsMessageReader) (m : UnpackedMessageHeader) (reader : MessageReader) : PartsMessageReader :=
  { r with
    messageReader := reader
    newestTimestamp := reader.newestTimestamp
    afterStart := r.afterStart ||
      decide (m.monotonicSentTime > r.monotonicStartTime + reader.maxOutOfOrderDuration) }

def readMessage (r : PartsMessageReader) : Except ReadCheck (Option UnpackedMessageHeader × PartsMessageReader) :=
  if r.done then .ok (none, { r with newestTimestamp := maxTime })
  else match r.messageReader.readMessage with
    | (some m, reader) =>
      let r' := r.accept m reader
      if r'.afterStart = true ∧ ¬ m.monotonicSentTime ≥ r'.newestTimestamp - reader.maxOutOfOrderDuration then
        .error .outOfOrder
      else .ok (some m, r')
    | (none, _) => readMessage r.nextLog
termination_by if r.done then 0 else r.nextParts.length + 1
decreasing_by
  rw [nextLog]
  split <;> simp_all

def unread (r : PartsMessageReader) : List UnpackedMessageHeader :=
  if r.done then [] else r.messageReader.unread ++ r.nextParts.flatMap LogFile.messages

theorem unread_nextLog {r : PartsMessageReader} (hdone : ¬ r.done = true) (hempty : r.messageReader.unread = []) :
    r.nextLog.unread = r.unread := by
  rw [nextLog]
  split
  · next hparts => simp [unread, hdone, hempty, hparts]
  · next f rest hparts => simp [unread, hdone, hempty, hparts, MessageReader.ofFile]

theorem unread_of_readMessage {r r' : PartsMessageReader} {m : UnpackedMessageHeader}
    (h : r.readMessage = .ok (some m, r')) : r.unread = m :: r'.unread := by
  fun_induction readMessage r with
  | case1 | case2 => cases h
  | case3 r hdone m' reader hread r1 hcheck =>
    obtain ⟨rfl, rfl⟩ : m' = m ∧ r1 = r' := by simpa using h
    obtain ⟨rest, hunread, rfl⟩ := MessageReader.readMessage_some hread
    simp [r1, unread, accept, hdone, hunread]
  | case4 r hdone reader hread ih =>
    rw [← unread_nextLog hdone (MessageReader.unread_of_readMessage_none hread)]
    exact ih h

end PartsMessageReader

structure LogPartsSorter where
  parts : LogParts
  partsMessageReader : PartsMessageReader
  sortedUntil : Int := minTime
  lastMessageTime : Int := minTime
  /-- A set, ordered by the keys of the messages. All have the boot of the parts, so comparing them never fails. -/
  messages : List Message := []

namespace LogPartsSorter

def ofParts (parts : LogParts) (first : LogFile) (rest : List LogFile) : LogPartsSorter :=
  { parts, partsMessageReader := ⟨parts.monotonicStartTime, .ofFile first, rest, false, false, minTime⟩ }

def unpack (parts : LogParts) (bootCounts : Nat → Option Nat) (m : UnpackedMessageHeader) :
    Except ReadCheck Message := do
  let monotonicRemoteBoot ←
    if m.monotonicRemoteTime.isSome then
      match bootCounts (parts.sourceNodeIndex m.channelIndex) with
      | none => throw .unknownBoot
      | some boot => pure boot
    else pure 0xffffff
  return {
    channelIndex := m.channelIndex
    queueIndex := ⟨parts.bootCount, m.queueIndex⟩
    timestamp := ⟨parts.bootCount, m.monotonicSentTime⟩
    monotonicRemoteBoot
    monotonicTimestampBoot := if m.hasMonotonicTimestampTime then parts.loggerBootCount else 0
    data := m
    isTime := m.isTime }

/-- No message that is still unread can come before the first one of the set. -/
def FrontIsSorted (s : LogPartsSorter) : Prop :=
  (∃ m ∈ s.messages.head?, m.timestamp.time < s.sortedUntil) ∧ s.sortedUntil ≥ s.parts.monotonicStartTime

instance (s : LogPartsSorter) : Decidable s.FrontIsSorted := inferInstanceAs (Decidable (_ ∧ _))

def queue (s : LogPartsSorter) (m : Message) (reader : PartsMessageReader) : LogPartsSorter :=
  let outOfOrder := reader.messageReader.maxOutOfOrderDuration
  { s with
    partsMessageReader := reader
    messages := KeyedSet.insert Message.key m s.messages
    sortedUntil := if reader.newestTimestamp > minTime + outOfOrder then reader.newestTimestamp - outOfOrder
      else minTime }

def queueUntilSorted (s : LogPartsSorter) : Except ReadCheck LogPartsSorter :=
  if s.FrontIsSorted then .ok s
  else match h : s.partsMessageReader.readMessage with
    | .error e => .error e
    | .ok (none, reader) => .ok { s with partsMessageReader := reader, sortedUntil := maxTime }
    | .ok (some m, reader) =>
      match unpack s.parts reader.messageReader.bootCounts m with
      | .error e => .error e
      | .ok message => queueUntilSorted (s.queue message reader)
termination_by s.partsMessageReader.unread.length
decreasing_by
  rw [PartsMessageReader.unread_of_readMessage h]
  exact Nat.lt_succ_self _

theorem queueUntilSorted_eq (s : LogPartsSorter) :
    s.queueUntilSorted =
      if s.FrontIsSorted then .ok s
      else s.partsMessageReader.readMessage >>= fun
        | (none, reader) => .ok { s with partsMessageReader := reader, sortedUntil := maxTime }
        | (some m, reader) => unpack s.parts reader.messageReader.bootCounts m >>= fun message =>
          (s.queue message reader).queueUntilSorted := by
  rw [queueUntilSorted]
  split
  · rfl
  · split
    · next hread =>
      rw [hread]
      rfl
    · next hread =>
      rw [hread]
      rfl
    · next hread =>
      rw [hread]
      simp only [bind, Except.bind]
      split <;> simp_all

/-- The first part of `Front`. At the end of the files everything is sorted for ever. -/
def fill (s : LogPartsSorter) : Except ReadCheck LogPartsSorter :=
  if s.sortedUntil ≠ maxTime then s.queueUntilSorted else .ok s

def setLast (s : LogPartsSorter) (lastMessageTime : Int) : LogPartsSorter := { s with lastMessageTime }

def front (s : LogPartsSorter) : Except ReadCheck (Option Message × LogPartsSorter) := do
  let s ← s.fill
  match s.messages with
  | [] => return (none, s.setLast maxTime)
  | m :: _ =>
    if m.timestamp.time ≥ s.lastMessageTime then return (some m, s.setLast m.timestamp.time)
    else throw .backwards

def popFront (s : LogPartsSorter) : LogPartsSorter := { s with messages := s.messages.tail }

def source : Pull ReadCheck LogPartsSorter Message := ⟨front, fun s => .ok s.popFront⟩

end LogPartsSorter

structure NodeMerger (n : Nat) where
  partsSorters : Fin n → LogPartsSorter
  /-- The sorter whose front is the front of the merger, once it was found. -/
  current : Option (Fin n) := none
  sortedUntil : Int := minTime
  lastMessageTime : Int := minTime
  monotonicOldestTime : Int := maxTime

namespace NodeMerger

variable {n : Nat}

structure Search (n : Nat) where
  partsSorters : Fin n → LogPartsSorter
  oldest : Option (Fin n × Message) := none
  sortedUntil : Int := maxTime

def Search.pop (q : Search n) (i : Fin n) : Search n :=
  { q with partsSorters := Function.update q.partsSorters i (q.partsSorters i).popFront }

theorem Search.pop_self (q : Search n) (i : Fin n) : (q.pop i).partsSorters i = (q.partsSorters i).popFront :=
  Function.update_self ..

theorem Search.pop_of_ne (q : Search n) {i j : Fin n} (h : j ≠ i) : (q.pop i).partsSorters j = q.partsSorters j :=
  Function.update_of_ne h ..

/-- Sorter `i` has `m` at its front. Of two copies of a message, the one with a timestamp time is kept. -/
def Search.consider (q : Search n) (i : Fin n) (m : Message) : Except ReadCheck (Search n) :=
  match q.oldest with
  | none => .ok { q with oldest := some (i, m) }
  | some (current, oldest) =>
    if m.timestamp.boot ≠ oldest.timestamp.boot then .error .differentBoots
    else if m.key < oldest.key then .ok { q with oldest := some (i, m) }
    else if m.key = oldest.key then
      if ¬ m.data.hasMonotonicTimestampTime then .ok (q.pop i)
      else if ¬ oldest.data.hasMonotonicTimestampTime then .ok { q.pop current with oldest := some (i, m) }
      else if m.data.monotonicTimestampTime ≠ oldest.data.monotonicTimestampTime then .error .timestampTimesDiffer
      else .ok (q.pop i)
    else .ok q

/-- `PopFront` may change how far the sorter is sorted, so that is read last. -/
def Search.visit (q : Search n) (i : Fin n) : Except ReadCheck (Search n) := do
  let (shown, sorter) ← (q.partsSorters i).front
  let q := { q with partsSorters := Function.update q.partsSorters i sorter }
  let q ← match shown with
    | none => pure q
    | some m => q.consider i m
  return { q with sortedUntil := min q.sortedUntil (q.partsSorters i).sortedUntil }

def search (partsSorters : Fin n → LogPartsSorter) : Except ReadCheck (Search n) :=
  (List.finRange n).foldlM Search.visit { partsSorters }

def found (c : NodeMerger n) (q : Search n) : NodeMerger n :=
  { c with partsSorters := q.partsSorters, current := q.oldest.map Prod.fst, sortedUntil := q.sortedUntil }

def front (c : NodeMerger n) : Except ReadCheck (Option Message × NodeMerger n) := do
  match c.current with
  | some i =>
    let (shown, sorter) ← (c.partsSorters i).front
    if ∃ m ∈ shown, ¬ m.timestamp.time ≥ c.lastMessageTime then throw .backwards
    return (shown, { c with partsSorters := Function.update c.partsSorters i sorter })
  | none =>
    let q ← search c.partsSorters
    match q.oldest with
    | none => return (none, { c.found q with lastMessageTime := maxTime })
    | some (_, oldest) =>
      if oldest.timestamp.time ≥ c.lastMessageTime then
        return (some oldest, { c.found q with
          lastMessageTime := oldest.timestamp.time
          monotonicOldestTime := min c.monotonicOldestTime oldest.timestamp.time })
      else throw .backwards

def popFront (c : NodeMerger n) : Except ReadCheck (NodeMerger n) :=
  match c.current with
  | none => .error .popBeforeFront
  | some i => .ok { c with
      partsSorters := Function.update c.partsSorters i (c.partsSorters i).popFront
      current := none }

def source : Pull ReadCheck (NodeMerger n) Message := ⟨front, popFront⟩

end NodeMerger

structure BootMerger where
  nodeMergers : List (Sigma NodeMerger)

namespace BootMerger

def frontOf : List (Sigma NodeMerger) → Except ReadCheck (Option Message × List (Sigma NodeMerger))
  | [] => .ok (none, [])
  | [c] => do
    let (shown, merger) ← c.2.front
    return (shown, [⟨c.1, merger⟩])
  | c :: next :: later => do
    let (shown, merger) ← c.2.front
    match shown with
    | none => frontOf (next :: later)
    | some m => return (some m, ⟨c.1, merger⟩ :: next :: later)

def front (b : BootMerger) : Except ReadCheck (Option Message × BootMerger) := do
  let (shown, mergers) ← frontOf b.nodeMergers
  return (shown, ⟨mergers⟩)

def popFront (b : BootMerger) : Except ReadCheck BootMerger :=
  match b.nodeMergers with
  | [] => .error .popBeforeFront
  | c :: rest => do
    let merger ← c.2.popFront
    return ⟨⟨c.1, merger⟩ :: rest⟩

def source : Pull ReadCheck BootMerger Message := ⟨front, popFront⟩

end BootMerger

end RobotCode.Logging
