import RobotCode.Lib.Fallible

/-!
# A subscriber of the web proxy

`Subscriber` reads one channel for the browsers that listen to it. It packs every message it fetches into packets of a
bounded size, keeps the last few messages, and has a cursor into them for each listener: the queue index of the
message that is sent next and the number of its next packet.

Queue indices count the messages of the channel and do not wrap, and the fetcher gets to every message before it is
overwritten. No channel is ever backed up.
-/

namespace RobotCode.Network

def kPacketSize : Nat := 125000

/-- A message as it is fetched. -/
structure Context where
  queueIndex : Nat
  monotonicEventTime : Int
  data : List UInt8
  deriving DecidableEq, Repr

structure MessageHeader where
  channelIndex : Nat
  queueIndex : Nat
  packetCount : Nat
  packetIndex : Nat
  data : List UInt8
  length : Nat
  monotonicSentTime : Int
  deriving DecidableEq, Repr

def getPacketCountFromSize (packetSize : Nat) : Nat := packetSize / kPacketSize + 1

def getPacketCount (context : Context) : Nat := getPacketCountFromSize context.data.length

def fillOutPacketVector (span : List UInt8) (packetIndex : Nat) : List UInt8 :=
  if kPacketSize * (packetIndex + 1) < span.length then (span.drop (kPacketSize * packetIndex)).take kPacketSize
  else
    let prefixSize := kPacketSize * packetIndex
    (span.drop prefixSize).take (span.length - prefixSize)

def packMessage (context : Context) (channelIndex packetIndex : Nat) : MessageHeader where
  channelIndex := channelIndex
  queueIndex := context.queueIndex
  packetCount := getPacketCount context
  packetIndex := packetIndex
  data := fillOutPacketVector context.data packetIndex
  length := context.data.length
  monotonicSentTime := context.monotonicEventTime

def packets (channelIndex : Nat) (context : Context) : List MessageHeader :=
  (List.range (getPacketCount context)).map (packMessage context channelIndex)

/-! ### The subscriber -/

/-- The messages of the channel so far, and the index of the one that `FetchNext` gets. -/
structure RawFetcher where
  messages : List Context
  nextIndex : Nat
  deriving DecidableEq, Repr

namespace RawFetcher

def fetchNext (f : RawFetcher) : Option (Context × RawFetcher) :=
  f.messages[f.nextIndex]?.map fun context => (context, { f with nextIndex := f.nextIndex + 1 })

/-- `Fetch`, with what the context was before. -/
def fetch (f : RawFetcher) (context : Option Context) : Option Context × RawFetcher :=
  if f.nextIndex < f.messages.length then (f.messages.getLast?, { f with nextIndex := f.messages.length })
  else (context, f)

end RawFetcher

inductive TransferMethod where
  | subsample
  | lossless
  deriving DecidableEq, Repr

structure ChannelInformation where
  transferMethod : TransferMethod
  currentQueueIndex : Nat := 0
  nextPacketNumber : Nat := 0
  deriving DecidableEq, Repr

structure BufferedMessage where
  index : Nat
  data : List MessageHeader
  deriving DecidableEq, Repr

structure Listener where
  dataChannel : Nat
  info : ChannelInformation
  sent : List MessageHeader := []
  deriving DecidableEq, Repr

structure Subscriber where
  fetcher : RawFetcher
  channelIndex : Nat
  bufferSize : Int
  messageBuffer : List BufferedMessage := []
  channels : List Listener := []
  deriving DecidableEq, Repr

inductive ProxyError where
  /-- `Inconsistent queue indices.` -/
  | inconsistentQueueIndices
  /-- `CHECK_LT(0u, packets_in_message)` and `CHECK_LT(channel->next_packet_number, packets_in_message)` -/
  | packetNumber
  /-- A packet that is not there. -/
  | outOfRange
  /-- The loop over the packets does not end. -/
  | outOfFuel
  deriving DecidableEq, Repr

/-- `NextBuffer` where the channel is behind. -/
def fellBehind (front : BufferedMessage) (channel : ChannelInformation) :
    Except ProxyError (Option MessageHeader × ChannelInformation) :=
  match front.data[0]? with
  | none => .error .outOfRange
  | some packet => .ok (some packet, { channel with currentQueueIndex := front.index, nextPacketNumber := 0 })

/-- The end of `NextBuffer`, after a packet of a message was taken. -/
def ChannelInformation.advance (channel : ChannelInformation) (packetsInMessage : Nat) : ChannelInformation :=
  if channel.nextPacketNumber + 1 = packetsInMessage then
    { channel with currentQueueIndex := channel.currentQueueIndex + 1, nextPacketNumber := 0 }
  else { channel with nextPacketNumber := channel.nextPacketNumber + 1 }

def nextBuffer (buffer : List BufferedMessage) (channel : ChannelInformation) :
    Except ProxyError (Option MessageHeader × ChannelInformation) :=
  match buffer.head?, buffer.getLast? with
  | some front, some back =>
    if channel.currentQueueIndex < front.index then fellBehind front channel
    else if back.index < channel.currentQueueIndex then .ok (none, channel)
    else if back.index - front.index + 1 ≠ buffer.length then .error .inconsistentQueueIndices
    else
      match buffer[channel.currentQueueIndex - front.index]? with
      | none => .error .outOfRange
      | some message =>
        match message.data[channel.nextPacketNumber]? with
        | none => .error .packetNumber
        | some packet => .ok (some packet, channel.advance message.data.length)
  | _, _ => .ok (none, channel)

def skipToLastMessage (buffer : List BufferedMessage) (channel : ChannelInformation) : ChannelInformation :=
  match buffer.getLast? with
  | none => channel
  | some back =>
    if channel.currentQueueIndex = back.index then channel
    else { channel with currentQueueIndex := back.index, nextPacketNumber := 0 }

/-- Send packets until `NextBuffer` has none. -/
def sendBuffers (buffer : List BufferedMessage) :
    Nat → ChannelInformation → List MessageHeader → Except ProxyError (ChannelInformation × List MessageHeader)
  | 0, _, _ => .error .outOfFuel
  | fuel + 1, channel, sent =>
    match nextBuffer buffer channel with
    | .error e => .error e
    | .ok (none, channel) => .ok (channel, sent)
    | .ok (some packet, channel) => sendBuffers buffer fuel channel (sent ++ [packet])

def packetFuel (buffer : List BufferedMessage) : Nat := (buffer.map (·.data.length)).sum + 2

/-- `RunIteration` for one channel. -/
def sendTo (buffer : List BufferedMessage) (listener : Listener) : Except ProxyError Listener :=
  let info := match listener.info.transferMethod with
    | .subsample => skipToLastMessage buffer listener.info
    | .lossless => listener.info
  (sendBuffers buffer (packetFuel buffer) info listener.sent).map fun (info, sent) => { listener with info, sent }

namespace Subscriber

variable (s : Subscriber)

def push (context : Context) (fetcher : RawFetcher) : Subscriber :=
  { s with
    fetcher
    messageBuffer := s.messageBuffer ++ [⟨context.queueIndex, packets s.channelIndex context⟩] }

/-- The loop of `RunIteration` that fetches messages, of which there are at most `n`. Without a buffer only the last
one is taken. -/
def fetchMessages : Nat → Subscriber → Subscriber
  | 0, s => s
  | n + 1, s =>
    match s.fetcher.fetchNext with
    | none => s
    | some (context, fetcher) =>
      if s.bufferSize = 0 then
        let (context', fetcher) := fetcher.fetch (some context)
        s.push (context'.getD context) fetcher
      else fetchMessages n (s.push context fetcher)

/-- The end of `RunIteration`, which makes the buffer as small as it should be. -/
def trim : Subscriber :=
  if 0 ≤ s.bufferSize then
    { s with messageBuffer := s.messageBuffer.drop (s.messageBuffer.length - s.bufferSize.toNat) }
  else s

def runIteration : Except ProxyError Subscriber :=
  if s.channels = [] ∧ s.bufferSize = 0 then .ok s
  else do
    let s := s.fetchMessages (s.fetcher.messages.length - s.fetcher.nextIndex)
    let channels ← s.channels.mapM (sendTo s.messageBuffer)
    .ok { s with channels }.trim

def addListener (dataChannel : Nat) (transferMethod : TransferMethod) : Subscriber :=
  let s := if s.channels = [] ∧ s.bufferSize = 0 then { s with fetcher := (s.fetcher.fetch none).2 } else s
  if dataChannel ∈ s.channels.map (·.dataChannel) then s
  else { s with channels := s.channels ++ [{ dataChannel, info := { transferMethod } }] }

inductive Event where
  /-- A message is sent on the channel. -/
  | send (monotonicEventTime : Int) (data : List UInt8)
  | addListener (dataChannel : Nat) (transferMethod : TransferMethod)
  | runIteration
  deriving DecidableEq, Repr

def send (monotonicEventTime : Int) (data : List UInt8) : Subscriber :=
  { s with fetcher := { s.fetcher with
    messages := s.fetcher.messages ++ [⟨s.fetcher.messages.length, monotonicEventTime, data⟩] } }

def step : Event → Except ProxyError Subscriber
  | .send monotonicEventTime data => .ok (s.send monotonicEventTime data)
  | .addListener dataChannel transferMethod => .ok (s.addListener dataChannel transferMethod)
  | .runIteration => s.runIteration

def run (events : List Event) : Except ProxyError Subscriber := events.foldlM step s

/-- A subscriber of a channel with some messages already sent, of which the first one it will fetch is `nextIndex`. -/
def initial (messages : List Context) (nextIndex channelIndex : Nat) (bufferSize : Int) : Subscriber :=
  ⟨⟨messages, nextIndex⟩, channelIndex, bufferSize, [], []⟩

end Subscriber

end RobotCode.Network
