import RobotCode.Lib.Fallible
import RobotCode.Logging.Message

/-!
# Matching timestamps with data

A message that was forwarded is logged twice: as data on the node that sent it, and as a timestamp on the
node that received it. Each node has a `TimestampMapper` that reads the sorted messages of its node. It
returns the messages that were sent there as they are, and the timestamps with the data that the mapper of
the sending node has queued for it. To have that data, the sending node's mapper reads ahead.
-/

namespace RobotCode.Logging

open Function

/-- The checks of the mappers that end the program, and the uses of a pointer that is null. -/
inductive MapCheck
  /-- A timestamp without the queue index or the times of its message on the remote node. -/
  | missingRemote
  /-- "Queue index matches, but timestamp doesn't.  Please investigate!" -/
  | differentTimestamp
  | differentBoot
  /-- The data of the message was given away with an earlier timestamp. -/
  | movedData
  /-- An index beyond the end of a queue. -/
  | outOfRange
  /-- A message before the last one that was returned. -/
  | backwards
  /-- A single node has unmatched messages. -/
  | unmatched
  | popBeforeFront
  | popAtEnd
  deriving DecidableEq, Repr

def BootTimestamp.maxTime : BootTimestamp := ⟨2 ^ 64 - 1, Logging.maxTime⟩

def BootQueueIndex.invalid : BootQueueIndex := ⟨2 ^ 64 - 1, 2 ^ 32 - 1⟩

structure TimestampedMessage where
  channelIndex : Nat
  queueIndex : BootQueueIndex
  monotonicEventTime : BootTimestamp
  realtimeEventTime : Int
  remoteQueueIndex : BootQueueIndex
  monotonicRemoteTime : BootTimestamp
  realtimeRemoteTime : Int
  monotonicTimestampTime : BootTimestamp
  data : Option UnpackedMessageHeader
  deriving DecidableEq

/-- `QueueMessage`: a message from this node, without remote data. -/
def TimestampedMessage.ofLocal (m : Message) : TimestampedMessage where
  channelIndex := m.channelIndex
  queueIndex := m.queueIndex
  monotonicEventTime := m.timestamp
  realtimeEventTime := m.data.realtimeSentTime
  remoteQueueIndex := .invalid
  monotonicRemoteTime := .minTime
  realtimeRemoteTime := minTime
  monotonicTimestampTime := .minTime
  data := some m.data

def TimestampedMessage.ofTimestamp (m : Message) (data : Option UnpackedMessageHeader) : TimestampedMessage where
  channelIndex := m.channelIndex
  queueIndex := m.queueIndex
  monotonicEventTime := m.timestamp
  realtimeEventTime := m.data.realtimeSentTime
  remoteQueueIndex := ⟨m.monotonicRemoteBoot, m.data.remoteQueueIndex.getD 0⟩
  monotonicRemoteTime := ⟨m.monotonicRemoteBoot, m.data.monotonicRemoteTime.getD 0⟩
  realtimeRemoteTime := m.data.realtimeRemoteTime.getD 0
  monotonicTimestampTime := ⟨m.monotonicTimestampBoot, m.data.monotonicTimestampTime⟩
  data

structure MapperConfig (n : Nat) where
  multiNode : Bool
  sourceNode : Nat → Fin n
  readable : Nat → Fin n → Bool
  /-- How long a channel's messages to a node are tried to be delivered, 0 for ever. -/
  timeToLive : Nat → Fin n → Int
  /-- `AddPeer` was called on the mapper of the first node with that of the second. -/
  saveForPeer : Fin n → Fin n → Bool
  saveForPeer_self : ∀ node, saveForPeer node node = false
  saveForPeer_single : multiNode = false → ∀ node dest, saveForPeer node dest = false
  monotonicStartTime : Fin n → Nat → Int
  maxNetworkDelay : Int

/-- The channel is forwarded from `node` to `dest`. -/
def MapperConfig.delivered {n : Nat} (cfg : MapperConfig n) (node dest : Fin n) (channel : Nat) : Bool :=
  cfg.readable channel dest && decide (cfg.sourceNode channel = node) && decide (node ≠ dest)

/-- Data that waits for its timestamp. The data is gone once it was moved out of the queue. -/
structure QueuedMessage where
  queueIndex : BootQueueIndex
  timestamp : BootTimestamp
  data : Option UnpackedMessageHeader
  deriving DecidableEq

def QueuedMessage.ofMessage (m : Message) : QueuedMessage := ⟨m.queueIndex, m.timestamp, some m.data⟩

inductive FirstMessage
  | needsUpdate
  | inMessage
  | nullptr
  deriving DecidableEq, Repr

structure TimestampMapper (n : Nat) where
  bootMerger : List Message
  messages : List Message := []
  nodesData : Fin n → Nat → List QueuedMessage := fun _ _ => []
  matchedMessages : List TimestampedMessage := []
  firstMessage : FirstMessage := .needsUpdate
  lastMessageTime : BootTimestamp := .minTime
  lastPoppedMessageTime : BootTimestamp := .minTime
  queuedUntil : BootTimestamp := .minTime

variable {n : Nat}

namespace TimestampMapper

/-- Data that cannot be asked for any more is forgotten, but for the last message. -/
def forget (age : Int) (now : BootTimestamp) : List QueuedMessage → List QueuedMessage
  | first :: second :: rest =>
    if first.timestamp.add age < now then forget age now (second :: rest) else first :: second :: rest
  | queue => queue

variable (cfg : MapperConfig n) (node : Fin n)

/-- `Queue`, with the `PopFront` that follows it: takes one message, and saves its data for the nodes it is delivered to. -/
def queue (t : TimestampMapper n) : Option (TimestampMapper n) :=
  match t.bootMerger with
  | [] => none
  | m :: rest => some { t with
      bootMerger := rest
      messages := t.messages ++ [m]
      nodesData := fun dest channel =>
        if channel = m.channelIndex ∧ cfg.saveForPeer node dest ∧ cfg.delivered node dest channel then
          let saved := if cfg.timeToLive channel dest > 0 then
              forget (cfg.timeToLive channel dest + cfg.maxNetworkDelay) t.lastPoppedMessageTime
                (t.nodesData dest channel)
            else t.nodesData dest channel
          saved ++ [QueuedMessage.ofMessage m]
        else t.nodesData dest channel }

theorem bootMerger_of_queue {cfg : MapperConfig n} {node : Fin n} {t t' : TimestampMapper n}
    (h : t.queue cfg node = some t') : ∃ m, t.bootMerger = m :: t'.bootMerger ∧ t'.messages = t.messages ++ [m] := by
  rw [queue] at h
  split at h
  · cases h
  · next m rest hmerger =>
    cases h
    exact ⟨m, hmerger, rfl⟩

theorem bootMerger_of_queue_none {cfg : MapperConfig n} {node : Fin n} {t : TimestampMapper n}
    (h : t.queue cfg node = none) : t.bootMerger = [] := by
  rw [queue] at h
  split at h
  · assumption
  · cases h

/-- The loop of `QueueUnmatchedUntil`. -/
def queuePast (cfg : MapperConfig n) (node : Fin n) (time : BootTimestamp) (t : TimestampMapper n) :
    TimestampMapper n :=
  match t.messages.getLast?.filter (fun last => time < last.timestamp) with
  | some last => { t with queuedUntil := max t.queuedUntil last.timestamp }
  | none =>
    match h : t.queue cfg node with
    | none => { t with queuedUntil := .maxTime }
    | some t' => queuePast cfg node time t'
termination_by t.bootMerger.length
decreasing_by
  obtain ⟨m, hmerger, -⟩ := bootMerger_of_queue h
  rw [hmerger]
  exact Nat.lt_succ_self _

def queueUnmatchedUntil (time : BootTimestamp) (t : TimestampMapper n) :
    TimestampMapper n :=
  if t.queuedUntil > time then t else queuePast cfg node time t

def checkTimes (m : QueuedMessage) (remoteTime : BootTimestamp) (realtimeRemoteTime : Int) :
    Except MapCheck UnpackedMessageHeader :=
  if m.timestamp ≠ remoteTime then .error .differentTimestamp
  else match m.data with
    | none => .error .movedData
    | some data => if data.realtimeSentTime ≠ realtimeRemoteTime then .error .differentTimestamp else .ok data

/-- The queue holds as many messages as there are indices from its first to its last. -/
def IsConsecutive (queue : List QueuedMessage) (front back : QueuedMessage) : Prop :=
  back.queueIndex.boot = front.queueIndex.boot ∧
    back.queueIndex.index - front.queueIndex.index + 1 = queue.length

instance (queue : List QueuedMessage) (front back : QueuedMessage) : Decidable (IsConsecutive queue front back) :=
  inferInstanceAs (Decidable (_ ∧ _))

/-- Looks up a queue index, and erases everything before it. When no message is missing the position follows from the index and
the message is copied, otherwise the queue is searched and it is moved. -/
def findData (queue : List QueuedMessage) (remoteQueueIndex : BootQueueIndex) (remoteTime : BootTimestamp)
    (realtimeRemoteTime : Int) : Except MapCheck (Option UnpackedMessageHeader × List QueuedMessage) :=
  match queue.head?, queue.getLast? with
  | some front, some back =>
    if remoteQueueIndex < front.queueIndex ∨ remoteQueueIndex > back.queueIndex then .ok (none, queue)
    else if IsConsecutive queue front back then
      if remoteQueueIndex.boot ≠ front.queueIndex.boot then .error .differentBoot
      else match queue.drop (remoteQueueIndex.index - front.queueIndex.index) with
        | [] => .error .outOfRange
        | result :: rest => do
          let data ← checkTimes result remoteTime realtimeRemoteTime
          return (some data, result :: rest)
    else match queue.dropWhile
        (fun m => ¬ (m.queueIndex = remoteQueueIndex ∧ m.timestamp.boot = remoteTime.boot)) with
      | [] => .ok (none, queue)
      | result :: rest => do
        let data ← checkTimes result remoteTime realtimeRemoteTime
        return (some data, { result with data := none } :: rest)
  | _, _ => .ok (none, queue)

def setQueue (t : TimestampMapper n) (dest : Fin n) (channel : Nat) (queue : List QueuedMessage) :
    TimestampMapper n :=
  { t with nodesData := update t.nodesData dest (update (t.nodesData dest) channel queue) }

end TimestampMapper

/-! ### The mappers of all nodes -/

abbrev Mappers (n : Nat) := Fin n → TimestampMapper n

namespace Mappers

open TimestampMapper

variable (cfg : MapperConfig n) (node : Fin n)

/-- The data of a timestamp that `node` received, from the mapper of the node that sent it. -/
def matchingMessageFor (m : Message) (s : Mappers n) :
    Except MapCheck (Option UnpackedMessageHeader × Mappers n) :=
  match m.data.remoteQueueIndex, m.data.monotonicRemoteTime, m.data.realtimeRemoteTime with
  | some remoteIndex, some remoteTime, some realtimeRemoteTime =>
    let source := cfg.sourceNode m.data.channelIndex
    if ¬ cfg.saveForPeer source node then .ok (none, s)
    else do
      let peer := (s source).queueUnmatchedUntil cfg source ⟨m.monotonicRemoteBoot, remoteTime⟩
      let (data, queue) ← findData (peer.nodesData node m.channelIndex) ⟨m.monotonicRemoteBoot, remoteIndex⟩
        ⟨m.monotonicRemoteBoot, remoteTime⟩ realtimeRemoteTime
      return (data, update s source (peer.setQueue node m.channelIndex queue))
  | _, _, _ => .error .missingRemote

def deliver (t : TimestampMapper n) (m : TimestampedMessage) : Except MapCheck (TimestampMapper n) :=
  if m.monotonicEventTime ≥ t.lastMessageTime then
    .ok { t with matchedMessages := t.matchedMessages ++ [m], lastMessageTime := m.monotonicEventTime }
  else .error .backwards

/-- The second part of `QueueMatched`, with an unmatched message at hand. -/
def matchFront (s : Mappers n) : Except MapCheck (Bool × Mappers n) :=
  match (s node).messages with
  | [] => .ok (false, s)
  | m :: _ => do
    if cfg.sourceNode m.channelIndex = node then
      let t ← deliver (s node) (.ofLocal m)
      return (true, update s node { t with messages := t.messages.tail })
    else
      let (data, s) ← matchingMessageFor cfg node m s
      let t ← deliver (s node) (.ofTimestamp m data)
      return (true, update s node { t with messages := t.messages.tail })

/-- Queues up one matched message of `node`, if there is one. -/
def queueMatched (s : Mappers n) : Except MapCheck (Bool × Mappers n) :=
  if ¬ cfg.multiNode then
    if (s node).messages ≠ [] then .error .unmatched
    else match (s node).bootMerger with
      | [] => .ok (false, s)
      | m :: rest => do
        let t ← deliver (s node) (.ofLocal m)
        return (true, update s node { t with bootMerger := rest })
  else if (s node).messages = [] then
    match (s node).queue cfg node with
    | none => .ok (false, s)
    | some t => matchFront cfg node (update s node t)
  else matchFront cfg node s

def remaining (t : TimestampMapper n) : Nat := t.messages.length + t.bootMerger.length

variable {cfg : MapperConfig n} {node : Fin n} {s s' : Mappers n} {t t' : TimestampMapper n}

theorem remaining_of_queue (h : t.queue cfg node = some t') : remaining t' = remaining t := by
  obtain ⟨m, hmerger, hmessages⟩ := bootMerger_of_queue h
  rw [remaining, remaining, hmerger, hmessages, List.length_append, List.length_cons, List.length_cons, List.length_nil]
  omega

theorem messages_of_deliver {m : TimestampedMessage} (h : deliver t m = .ok t') :
    t'.messages = t.messages ∧ t'.bootMerger = t.bootMerger := by
  rw [deliver] at h
  split at h
  · cases h
    exact ⟨rfl, rfl⟩
  · cases h

theorem matchingMessageFor_node {m : Message} {data : Option UnpackedMessageHeader}
    (h : matchingMessageFor cfg node m s = .ok (data, s')) : s' node = s node := by
  rw [matchingMessageFor] at h
  split at h
  · dsimp only at h
    split at h
    · obtain ⟨-, rfl⟩ : none = data ∧ s = s' := by simpa using h
      rfl
    · next hpeer =>
      have hne : node ≠ cfg.sourceNode m.data.channelIndex := by
        intro heq
        rw [← heq, cfg.saveForPeer_self] at hpeer
        exact hpeer (by simp)
      obtain ⟨found, -, hfound⟩ := Fallible.bind_eq_ok.mp h
      obtain ⟨-, rfl⟩ : found.1 = data ∧ _ = s' := by simpa [pure, Except.pure] using hfound
      exact update_of_ne hne ..
  · cases h

theorem remaining_of_matchFront (h : matchFront cfg node s = .ok (true, s')) :
    remaining (s' node) < remaining (s node) := by
  rw [matchFront] at h
  split at h
  · cases h
  · next m rest hmessages =>
    have hshrinks : ∀ t t' : TimestampMapper n, ∀ d, t = s node → deliver t d = .ok t' →
        remaining { t' with messages := t'.messages.tail } < remaining (s node) := by
      intro t t' d ht hdeliver
      obtain ⟨hmessages', hmerger⟩ := messages_of_deliver hdeliver
      rw [remaining, remaining, hmessages', hmerger, ht, hmessages, List.tail_cons, List.length_cons]
      dsimp only
      omega
    split at h
    · obtain ⟨t, hdeliver, ht⟩ := Fallible.bind_eq_ok.mp h
      obtain rfl : _ = s' := by simpa [pure, Except.pure] using ht
      rw [update_self]
      exact hshrinks _ _ _ rfl hdeliver
    · obtain ⟨⟨data, s1⟩, hmatch, hrest⟩ := Fallible.bind_eq_ok.mp h
      obtain ⟨t, hdeliver, ht⟩ := Fallible.bind_eq_ok.mp hrest
      obtain rfl : _ = s' := by simpa [pure, Except.pure] using ht
      rw [update_self]
      exact hshrinks _ _ _ (matchingMessageFor_node hmatch) hdeliver

theorem remaining_of_queueMatched (h : queueMatched cfg node s = .ok (true, s')) :
    remaining (s' node) < remaining (s node) := by
  rw [queueMatched] at h
  split at h
  · split at h
    · cases h
    · split at h
      · cases h
      · next m rest hmerger =>
        obtain ⟨t, hdeliver, ht⟩ := Fallible.bind_eq_ok.mp h
        obtain rfl : _ = s' := by simpa [pure, Except.pure] using ht
        obtain ⟨hmessages', -⟩ := messages_of_deliver hdeliver
        rw [update_self, remaining, remaining, hmessages', hmerger, List.length_cons]
        dsimp only
        omega
  · split at h
    · split at h
      · cases h
      · next t hqueue =>
        have hlt := remaining_of_matchFront h
        rwa [update_self, remaining_of_queue hqueue] at hlt
    · exact remaining_of_matchFront h

/-- Queues matched messages of `node` while the condition holds and there are any. -/
def queueWhile (cfg : MapperConfig n) (node : Fin n) (wants : TimestampMapper n → Bool) (s : Mappers n) :
    Except MapCheck (Mappers n) :=
  if wants (s node) then
    match h : queueMatched cfg node s with
    | .error e => .error e
    | .ok (false, s') => .ok s'
    | .ok (true, s') => queueWhile cfg node wants s'
  else .ok s
termination_by remaining (s node)
decreasing_by exact remaining_of_queueMatched h

def queueUntil (cfg : MapperConfig n) (node : Fin n) (queueTime : BootTimestamp) (s : Mappers n) :
    Except MapCheck (Mappers n) :=
  queueWhile cfg node (fun t => t.lastMessageTime ≤ queueTime) s

/-- `Front` and `QueueFor` start by queueing a matched message when there is none. -/
def ensureMatched (cfg : MapperConfig n) (node : Fin n) (s : Mappers n) : Except MapCheck (Bool × Mappers n) :=
  if (s node).matchedMessages = [] then queueMatched cfg node s else .ok (true, s)

def queueFor (cfg : MapperConfig n) (node : Fin n) (timeEstimationBuffer : Int) (s : Mappers n) :
    Except MapCheck (Mappers n) := do
  let (available, s) ← ensureMatched cfg node s
  match available, (s node).matchedMessages with
  | true, first :: _ =>
    let time := first.monotonicEventTime
    let endQueueTime := max (cfg.monotonicStartTime node time.boot) time.time + timeEstimationBuffer
    queueWhile cfg node (fun t => endQueueTime ≥ t.lastMessageTime.time) s
  | _, _ => return s

def front (cfg : MapperConfig n) (node : Fin n) (s : Mappers n) :
    Except MapCheck (Option TimestampedMessage × Mappers n) :=
  match (s node).firstMessage with
  | .inMessage => .ok ((s node).matchedMessages.head?, s)
  | .nullptr => .ok (none, s)
  | .needsUpdate => do
    let (available, s) ← ensureMatched cfg node s
    if available then
      return ((s node).matchedMessages.head?, update s node { s node with firstMessage := .inMessage })
    else return (none, update s node { s node with firstMessage := .nullptr })

def popFront (cfg : MapperConfig n) (node : Fin n) (s : Mappers n) : Except MapCheck (Mappers n) := do
  if (s node).firstMessage = .needsUpdate then throw .popBeforeFront
  let (shown, s) ← front cfg node s
  match shown with
  | none => throw .popAtEnd
  | some m => return update s node { s node with
      lastPoppedMessageTime := m.monotonicEventTime
      firstMessage := .needsUpdate
      matchedMessages := (s node).matchedMessages.tail }

inductive Call (n : Nat)
  | front (node : Fin n)
  | popFront (node : Fin n)
  | queueUntil (node : Fin n) (queueTime : BootTimestamp)
  | queueFor (node : Fin n) (timeEstimationBuffer : Int)

/-- What the `Front` calls among the calls return. -/
def run (cfg : MapperConfig n) : Mappers n → List (Call n) → Except MapCheck (List (Option TimestampedMessage))
  | _, [] => .ok []
  | s, .front node :: calls => do
    let (shown, s) ← front cfg node s
    return shown :: (← run cfg s calls)
  | s, .popFront node :: calls => do run cfg (← popFront cfg node s) calls
  | s, .queueUntil node queueTime :: calls => do run cfg (← queueUntil cfg node queueTime s) calls
  | s, .queueFor node timeEstimationBuffer :: calls => do run cfg (← queueFor cfg node timeEstimationBuffer s) calls

def start (streams : Fin n → List Message) : Mappers n := fun node => { bootMerger := streams node }

end Mappers

end RobotCode.Logging
