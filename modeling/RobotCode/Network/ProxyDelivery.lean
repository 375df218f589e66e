import RobotCode.Network.WebProxy

/-!
# What a listener of the web proxy is sent

Between two calls the buffer holds consecutive messages that end with the last one that was fetched, and every
cursor is at the start of a message. An iteration then sends a listener whole messages, in order.

Two things go wrong. A listener that is behind the buffer is moved to its front and sent the first packet there, but
its packet number is not moved on, so that packet is sent again. And skipping to the last message moves back a
listener that has been sent it already.
-/

namespace RobotCode.Network

open List

open Fallible (bind_eq_ok map_eq_ok)

theorem fillOutPacketVector_eq (span : List UInt8) (i : Nat) :
    fillOutPacketVector span i = (span.drop (kPacketSize * i)).take kPacketSize := by
  unfold fillOutPacketVector
  split
  · rfl
  · rename_i hlast
    rw [Nat.mul_add_one] at hlast
    rw [take_of_length_le (l := span.drop _), take_of_length_le]
    · rw [length_drop]
      omega
    · rw [length_drop]

theorem flatMap_fillOutPacketVector (span : List UInt8) (n : Nat) :
    (range n).flatMap (fillOutPacketVector span) = span.take (kPacketSize * n) := by
  induction n with
  | zero => rfl
  | succ n ih =>
    rw [range_succ, flatMap_append, ih, flatMap_singleton, fillOutPacketVector_eq, Nat.mul_add_one, take_add]

theorem flatMap_data_packets (channelIndex : Nat) (context : Context) :
    (packets channelIndex context).flatMap (·.data) = context.data := by
  have hcover : context.data.length ≤ kPacketSize * getPacketCount context := by
    have hmod := Nat.div_add_mod context.data.length kPacketSize
    have hlt : context.data.length % kPacketSize < kPacketSize := Nat.mod_lt _ (by decide)
    rw [getPacketCount, getPacketCountFromSize, Nat.mul_add_one]
    omega
  unfold packets
  rw [flatMap_map]
  exact (flatMap_fillOutPacketVector context.data _).trans (take_of_length_le hcover)

theorem packets_ne_nil (channelIndex : Nat) (context : Context) : packets channelIndex context ≠ [] := by
  simp [packets, getPacketCount, getPacketCountFromSize, range_succ]

def buffered (channelIndex : Nat) (context : Context) : BufferedMessage :=
  ⟨context.queueIndex, packets channelIndex context⟩

def Indexed (messages : List Context) : Prop :=
  ∀ (i : Nat) (context : Context), messages[i]? = some context → context.queueIndex = i

/-- The messages from `first` to before `next`. -/
def window (messages : List Context) (first next : Nat) : List Context := (messages.take next).drop first

variable {channelIndex : Nat} {messages : List Context} {first next : Nat}

theorem getElem?_window {i : Nat} (h : first + i < next) : (window messages first next)[i]? = messages[first + i]? := by
  rw [window, getElem?_drop, getElem?_take_of_lt h]

variable {channel : ChannelInformation} {context : Context} {l : Listener}

theorem window_eq_cons (h : first < next) (hcontext : messages[first]? = some context) :
    window messages first next = context :: window messages (first + 1) next := by
  have hfirst : (messages.take next)[first]? = some context := by rw [getElem?_take_of_lt h, hcontext]
  obtain ⟨hlt, rfl⟩ := List.getElem?_eq_some_iff.mp hfirst
  exact drop_eq_getElem_cons hlt

theorem window_self : window messages next next = [] := drop_of_length_le (length_take_le _ _)

/-- The buffer when the messages from `first` to before `next` are kept. -/
def bufferOf (channelIndex : Nat) (messages : List Context) (first next : Nat) : List BufferedMessage :=
  (window messages first next).map (buffered channelIndex)

theorem getElem?_bufferOf {i : Nat} (h : first + i < next) (hcontext : messages[first + i]? = some context) :
    (bufferOf channelIndex messages first next)[i]? = some (buffered channelIndex context) := by
  rw [bufferOf, getElem?_map, getElem?_window h, hcontext]
  rfl

theorem length_bufferOf (h : next ≤ messages.length) :
    (bufferOf channelIndex messages first next).length = next - first := by
  rw [bufferOf, length_map, window, length_drop, length_take, Nat.min_eq_left h]

section

variable (channelIndex : Nat) (hindexed : Indexed messages) (h : first < next) (hnext : next ≤ messages.length)

include hindexed h hnext

theorem head?_bufferOf :
    ∃ front, (bufferOf channelIndex messages first next).head? = some front ∧ front.index = first := by
  have hfirst : messages[first + 0]? = some messages[first] := getElem?_eq_getElem (by omega)
  refine ⟨buffered channelIndex messages[first], ?_, hindexed first _ hfirst⟩
  rw [head?_eq_getElem?]
  exact getElem?_bufferOf h hfirst

theorem getLast?_bufferOf :
    ∃ back, (bufferOf channelIndex messages first next).getLast? = some back ∧ back.index = next - 1 := by
  have hlast : messages[first + (next - first - 1)]? = some messages[first + (next - first - 1)] :=
    getElem?_eq_getElem (by omega)
  have hindex : messages[first + (next - first - 1)].queueIndex = next - 1 := (hindexed _ _ hlast).trans (by omega)
  refine ⟨buffered channelIndex messages[first + (next - first - 1)], ?_, hindex⟩
  rw [getLast?_eq_getElem?, length_bufferOf hnext]
  exact getElem?_bufferOf (by omega) hlast

end

/-! ### Sending -/

def remaining (channelIndex : Nat) (messages : List Context) (next : Nat) (channel : ChannelInformation) :
    List MessageHeader :=
  ((window messages channel.currentQueueIndex next).flatMap (packets channelIndex)).drop channel.nextPacketNumber

structure Placed (channelIndex : Nat) (messages : List Context) (first next : Nat) (channel : ChannelInformation) :
    Prop where
  first_le : first ≤ channel.currentQueueIndex
  le_next : channel.currentQueueIndex ≤ next
  packet_zero : channel.currentQueueIndex = next → channel.nextPacketNumber = 0
  packet_lt : ∀ context, channel.currentQueueIndex < next → messages[channel.currentQueueIndex]? = some context →
    channel.nextPacketNumber < (packets channelIndex context).length

theorem nextBuffer_of_end (hindexed : Indexed messages) (hnext : next ≤ messages.length)
    (h : first < next) (hend : channel.currentQueueIndex = next) :
    nextBuffer (bufferOf channelIndex messages first next) channel = .ok (none, channel) := by
  obtain ⟨front, hfront, hfirst⟩ := head?_bufferOf channelIndex hindexed h hnext
  obtain ⟨back, hback, hlast⟩ := getLast?_bufferOf channelIndex hindexed h hnext
  unfold nextBuffer
  rw [hfront, hback]
  dsimp only
  rw [if_neg (by omega), if_pos (by omega)]

theorem remaining_eq_drop (channel : ChannelInformation) (hlt : channel.currentQueueIndex < next)
    (hcontext : messages[channel.currentQueueIndex]? = some context)
    (hpacket : channel.nextPacketNumber ≤ (packets channelIndex context).length) :
    remaining channelIndex messages next channel = (packets channelIndex context).drop channel.nextPacketNumber ++
        (window messages (channel.currentQueueIndex + 1) next).flatMap (packets channelIndex) := by
  rw [remaining, window_eq_cons hlt hcontext, flatMap_cons, drop_append_of_le_length hpacket]

theorem Placed.advance
    (hplaced : Placed channelIndex messages first next channel) (hlt : channel.currentQueueIndex < next)
    (hcontext : messages[channel.currentQueueIndex]? = some context) :
    Placed channelIndex messages first next (channel.advance (packets channelIndex context).length) ∧
      (packets channelIndex context).drop (channel.nextPacketNumber + 1) ++
        (window messages (channel.currentQueueIndex + 1) next).flatMap (packets channelIndex) =
        remaining channelIndex messages next (channel.advance (packets channelIndex context).length) := by
  have hfirst := hplaced.first_le
  have hpacket := hplaced.packet_lt context hlt hcontext
  unfold ChannelInformation.advance
  split
  · rename_i hlast
    refine ⟨⟨?_, hlt, fun _ => rfl, ?_⟩, ?_⟩
    · change first ≤ channel.currentQueueIndex + 1
      omega
    · intro context' _ _
      exact length_pos_iff.mpr (packets_ne_nil channelIndex context')
    · rw [hlast, drop_length, nil_append]
      rfl
  · have hsucc : channel.nextPacketNumber + 1 < (packets channelIndex context).length := by omega
    refine ⟨⟨hfirst, hlt.le, fun hend => absurd hend hlt.ne, ?_⟩, ?_⟩
    · intro context' _ hcontext'
      obtain rfl := Option.some.inj (hcontext.symm.trans hcontext')
      exact hsucc
    · symm
      exact remaining_eq_drop { channel with nextPacketNumber := channel.nextPacketNumber + 1 } hlt hcontext hsucc.le

theorem nextBuffer_of_lt (hindexed : Indexed messages) (hnext : next ≤ messages.length)
    (hplaced : Placed channelIndex messages first next channel) (hlt : channel.currentQueueIndex < next) :
    ∃ packet channel', nextBuffer (bufferOf channelIndex messages first next) channel = .ok (some packet, channel') ∧
      Placed channelIndex messages first next channel' ∧ channel'.transferMethod = channel.transferMethod ∧
      remaining channelIndex messages next channel = packet :: remaining channelIndex messages next channel' := by
  have hfirst := hplaced.first_le
  obtain ⟨front, hfront, hfront'⟩ := head?_bufferOf channelIndex hindexed (hfirst.trans_lt hlt) hnext
  obtain ⟨back, hback, hback'⟩ := getLast?_bufferOf channelIndex hindexed (hfirst.trans_lt hlt) hnext
  obtain ⟨context, hcontext⟩ : ∃ context, messages[channel.currentQueueIndex]? = some context :=
    ⟨_, getElem?_eq_getElem (by omega)⟩
  have hbuffered : (bufferOf channelIndex messages first next)[channel.currentQueueIndex - front.index]? =
      some (buffered channelIndex context) := by
    have hplace : first + (channel.currentQueueIndex - first) = channel.currentQueueIndex := by omega
    rw [hfront']
    exact getElem?_bufferOf (by rwa [hplace]) (by rwa [hplace])
  have hpacket := hplaced.packet_lt context hlt hcontext
  have hdata : (buffered channelIndex context).data[channel.nextPacketNumber]? =
      some (packets channelIndex context)[channel.nextPacketNumber] := getElem?_eq_getElem hpacket
  obtain ⟨hplaced', hremaining⟩ := hplaced.advance hlt hcontext
  refine ⟨(packets channelIndex context)[channel.nextPacketNumber], _, ?_, hplaced', ?_, ?_⟩
  · unfold nextBuffer
    rw [hfront, hback]
    dsimp only
    rw [if_neg (by omega), if_neg (by omega), if_neg (by rw [length_bufferOf hnext]; omega), hbuffered]
    dsimp only
    rw [hdata]
    rfl
  · unfold ChannelInformation.advance
    split <;> rfl
  · rw [remaining_eq_drop channel hlt hcontext hpacket.le, ← hremaining, drop_eq_getElem_cons hpacket,
      cons_append]

theorem sendBuffers_spec {fuel : Nat} {sent : List MessageHeader}
    (hindexed : Indexed messages) (hnext : next ≤ messages.length) (hne : first < next)
    (hplaced : Placed channelIndex messages first next channel)
    (hfuel : (remaining channelIndex messages next channel).length < fuel) :
    sendBuffers (bufferOf channelIndex messages first next) fuel channel sent =
      .ok (⟨channel.transferMethod, next, 0⟩, sent ++ remaining channelIndex messages next channel) := by
  induction fuel generalizing channel sent with
  | zero => omega
  | succ fuel ih =>
    rw [sendBuffers]
    obtain hend | hlt := hplaced.le_next.eq_or_lt
    · have hzero := hplaced.packet_zero hend
      have hnil : remaining channelIndex messages next channel = [] := by
        rw [remaining, hend, window_self]
        exact drop_nil
      rw [nextBuffer_of_end hindexed hnext hne hend, hnil, append_nil, ← hend, ← hzero]
    · obtain ⟨packet, channel', hnextBuffer, hplaced', hmethod, hremaining⟩ :=
        nextBuffer_of_lt hindexed hnext hplaced hlt
      rw [hremaining, length_cons] at hfuel
      rw [hnextBuffer, hremaining]
      dsimp only
      rw [ih hplaced' (by omega), hmethod, append_assoc]
      rfl

theorem bufferOf_succ (channelIndex : Nat) (h : first ≤ next) (hcontext : messages[next]? = some context) :
    bufferOf channelIndex messages first (next + 1) =
      bufferOf channelIndex messages first next ++ [buffered channelIndex context] := by
  obtain ⟨hlt, rfl⟩ := List.getElem?_eq_some_iff.mp hcontext
  rw [bufferOf, bufferOf, window, window, ← take_concat_get' messages next hlt, drop_append_of_le_length,
    map_append]
  · rfl
  · rw [length_take]
    omega

theorem bufferOf_self : bufferOf channelIndex messages next next = [] := by rw [bufferOf, window_self, map_nil]

theorem length_remaining_lt (h : first ≤ channel.currentQueueIndex) :
    (remaining channelIndex messages next channel).length <
      packetFuel (bufferOf channelIndex messages first next) := by
  have hwindow : window messages channel.currentQueueIndex next =
      (window messages first next).drop (channel.currentQueueIndex - first) := by
    rw [window, window, drop_drop, Nat.add_sub_cancel' h]
  have hsum := ((drop_sublist (channel.currentQueueIndex - first) (window messages first next)).map
    fun context => (packets channelIndex context).length).sum_le_sum fun _ _ => Nat.zero_le _
  rw [remaining, length_drop, length_flatMap, hwindow, packetFuel, bufferOf, map_map]
  change _ < ((window messages first next).map fun context => (packets channelIndex context).length).sum + 2
  omega

theorem pairwise_window (hindexed : Indexed messages) :
    (window messages first next).Pairwise fun m m' => m.queueIndex < m'.queueIndex := by
  have hall : messages.Pairwise fun m m' => m.queueIndex < m'.queueIndex := by
    rw [pairwise_iff_getElem]
    intro i j hi hj hij
    rw [hindexed i _ (getElem?_eq_getElem hi), hindexed j _ (getElem?_eq_getElem hj)]
    exact hij
  exact hall.sublist ((drop_sublist _ _).trans (take_sublist _ _))

theorem mem_window {m : Context} (hindexed : Indexed messages) (hm : m ∈ window messages first next) :
    m ∈ messages ∧ first ≤ m.queueIndex ∧ m.queueIndex < next := by
  obtain ⟨i, hi⟩ := mem_iff_getElem?.mp hm
  rw [window, getElem?_drop, getElem?_take] at hi
  split at hi
  · rename_i hlt
    rw [hindexed _ _ hi]
    exact ⟨mem_of_getElem? hi, Nat.le_add_right _ _, hlt⟩
  · cases hi

structure Delivered (channelIndex : Nat) (messages : List Context) (next : Nat) (l : Listener) : Prop where
  packet_zero : l.info.nextPacketNumber = 0
  le_next : l.info.currentQueueIndex ≤ next
  sent : ∃ ms : List Context, l.sent = ms.flatMap (packets channelIndex) ∧
    (ms.Pairwise fun m m' => m.queueIndex < m'.queueIndex) ∧
    ∀ m ∈ ms, m ∈ messages ∧ m.queueIndex < l.info.currentQueueIndex

theorem Delivered.mono {next' : Nat} {more : List Context}
    (h : Delivered channelIndex messages next l) (hnext : next ≤ next') :
    Delivered channelIndex (messages ++ more) next' l := by
  obtain ⟨ms, hsent, hpairwise, hmem⟩ := h.sent
  refine ⟨h.packet_zero, h.le_next.trans hnext, ms, hsent, hpairwise, ?_⟩
  intro m hm
  exact ⟨mem_append_left _ (hmem m hm).1, (hmem m hm).2⟩

theorem Delivered.sendBuffers (h : Delivered channelIndex messages next l) (method : TransferMethod)
    (current : Nat) (hindexed : Indexed messages) (hle : l.info.currentQueueIndex ≤ current)
    (hfirst : first ≤ current) (hcurrent : current ≤ messages.length) (hne : first < messages.length) :
    ∃ info sent, sendBuffers (bufferOf channelIndex messages first messages.length)
        (packetFuel (bufferOf channelIndex messages first messages.length)) ⟨method, current, 0⟩ l.sent =
        .ok (info, sent) ∧
      Delivered channelIndex messages messages.length { l with info, sent } := by
  have hplaced : Placed channelIndex messages first messages.length ⟨method, current, 0⟩ :=
    ⟨hfirst, hcurrent, fun _ => rfl, fun m _ _ => length_pos_iff.mpr (packets_ne_nil channelIndex m)⟩
  refine ⟨_, _, sendBuffers_spec hindexed le_rfl hne hplaced (length_remaining_lt hfirst), rfl, le_rfl, ?_⟩
  obtain ⟨ms, hsent, hpairwise, hmem⟩ := h.sent
  refine ⟨ms ++ window messages current messages.length, ?_, ?_, ?_⟩
  · rw [flatMap_append, ← hsent]
    rfl
  · refine pairwise_append.mpr ⟨hpairwise, pairwise_window hindexed, ?_⟩
    intro m hm m' hm'
    exact ((hmem m hm).2.trans_le hle).trans_le (mem_window hindexed hm').2.1
  · intro m hm
    obtain hm | hm := mem_append.mp hm
    · exact ⟨(hmem m hm).1, (hmem m hm).2.trans_le (hle.trans hcurrent)⟩
    · exact ⟨(mem_window hindexed hm).1, (mem_window hindexed hm).2.2⟩

/-- Where the cursor of a listener has to be so that nothing is sent twice. -/
def Listener.Ready (l : Listener) (first next : Nat) : Prop :=
  (l.info.transferMethod = .lossless → first ≤ l.info.currentQueueIndex) ∧
    (l.info.transferMethod = .subsample → l.info.currentQueueIndex < next)

instance (l : Listener) (first next : Nat) : Decidable (l.Ready first next) := inferInstanceAs (Decidable (_ ∧ _))

theorem skipToLastMessage_eq (hindexed : Indexed messages)
    (hne : first < messages.length) (hzero : channel.nextPacketNumber = 0) :
    skipToLastMessage (bufferOf channelIndex messages first messages.length) channel =
      ⟨channel.transferMethod, messages.length - 1, 0⟩ := by
  obtain ⟨back, hback, hindex⟩ := getLast?_bufferOf channelIndex hindexed hne le_rfl
  unfold skipToLastMessage
  rw [hback]
  dsimp only
  rw [hindex]
  split
  · rename_i hlast
    rw [← hlast, ← hzero]
  · rfl

theorem sendTo_spec (hindexed : Indexed messages) (h : Delivered channelIndex messages next l)
    (hnext : next ≤ messages.length) (hready : first < messages.length → l.Ready first messages.length) :
    ∃ l', sendTo (bufferOf channelIndex messages first messages.length) l = .ok l' ∧
      Delivered channelIndex messages messages.length l' := by
  have hle := h.le_next.trans hnext
  by_cases hne : first < messages.length
  · unfold sendTo
    cases hmethod : l.info.transferMethod with
    | subsample =>
      have hlast := (hready hne).2 hmethod
      obtain ⟨info, sent, hsend, hdelivered⟩ := h.sendBuffers .subsample (messages.length - 1) hindexed
        (by omega) (by omega : first ≤ messages.length - 1) (by omega) hne
      rw [skipToLastMessage_eq hindexed hne h.packet_zero, hmethod]
      exact ⟨_, map_eq_ok.mpr ⟨_, hsend, rfl⟩, hdelivered⟩
    | lossless =>
      obtain ⟨info, sent, hsend, hdelivered⟩ :=
        h.sendBuffers .lossless _ hindexed le_rfl ((hready hne).1 hmethod) hle hne
      have hinfo : l.info = ⟨.lossless, l.info.currentQueueIndex, 0⟩ := by rw [← hmethod, ← h.packet_zero]
      rw [← hinfo] at hsend
      exact ⟨_, map_eq_ok.mpr ⟨_, hsend, rfl⟩, hdelivered⟩
  · have hnil : bufferOf channelIndex messages first messages.length = [] := by
      rw [← length_eq_zero_iff, length_bufferOf le_rfl]
      omega
    refine ⟨l, ?_, { h with le_next := hle }⟩
    rw [hnil]
    unfold sendTo
    cases l.info.transferMethod <;> rfl

/-! ### Iterations -/

def Subscriber.earliestIndex (s : Subscriber) : Nat :=
  match s.messageBuffer.head? with
  | some front => front.index
  | none => if s.bufferSize = 0 then s.fetcher.messages.length - 1 else s.fetcher.nextIndex

def Subscriber.Ready (s : Subscriber) : Prop :=
  s.messageBuffer ≠ [] ∨ s.fetcher.nextIndex < s.fetcher.messages.length →
    ∀ l ∈ s.channels, l.Ready s.earliestIndex s.fetcher.messages.length

instance (s : Subscriber) : Decidable s.Ready := inferInstanceAs (Decidable (_ → _))

structure Kept (s : Subscriber) : Prop where
  indexed : Indexed s.fetcher.messages
  next_le : s.fetcher.nextIndex ≤ s.fetcher.messages.length
  buffer : ∃ first, first ≤ s.fetcher.nextIndex ∧
    s.messageBuffer = bufferOf s.channelIndex s.fetcher.messages first s.fetcher.nextIndex
  delivered : ∀ l ∈ s.channels, Delivered s.channelIndex s.fetcher.messages s.fetcher.nextIndex l

/-- What holds between two calls. -/
structure Sound (s : Subscriber) : Prop extends Kept s where
  unbuffered : s.bufferSize = 0 → s.messageBuffer = []

variable {s : Subscriber}

structure Fetched (s s' : Subscriber) (first : Nat) : Prop where
  messages : s'.fetcher.messages = s.fetcher.messages
  nextIndex : s'.fetcher.nextIndex = s.fetcher.messages.length
  buffer : s'.messageBuffer = bufferOf s.channelIndex s.fetcher.messages first s.fetcher.messages.length
  channelIndex : s'.channelIndex = s.channelIndex
  bufferSize : s'.bufferSize = s.bufferSize
  channels : s'.channels = s.channels

open Subscriber

theorem fetchMessages_of_ne {n : Nat} (hsize : s.bufferSize ≠ 0)
    (hn : s.fetcher.nextIndex + n = s.fetcher.messages.length) (hfirst : first ≤ s.fetcher.nextIndex)
    (hbuffer : s.messageBuffer = bufferOf s.channelIndex s.fetcher.messages first s.fetcher.nextIndex) :
    Fetched s (s.fetchMessages n) first := by
  induction n generalizing s with
  | zero =>
    rw [fetchMessages]
    rw [Nat.add_zero] at hn
    exact ⟨rfl, hn, by rw [hbuffer, hn], rfl, rfl, rfl⟩
  | succ n ih =>
    have hcontext : s.fetcher.messages[s.fetcher.nextIndex]? = some s.fetcher.messages[s.fetcher.nextIndex] :=
      getElem?_eq_getElem (by omega)
    rw [fetchMessages, RawFetcher.fetchNext, hcontext]
    dsimp only [Option.map_some]
    rw [if_neg hsize]
    have hpush : (s.push s.fetcher.messages[s.fetcher.nextIndex]
        { s.fetcher with nextIndex := s.fetcher.nextIndex + 1 }).messageBuffer =
        bufferOf s.channelIndex s.fetcher.messages first (s.fetcher.nextIndex + 1) := by
      rw [bufferOf_succ s.channelIndex hfirst hcontext, ← hbuffer]
      rfl
    exact { ih (s := s.push s.fetcher.messages[s.fetcher.nextIndex]
      { s.fetcher with nextIndex := s.fetcher.nextIndex + 1 }) hsize ((Nat.add_right_comm _ _ _).trans hn)
      (Nat.le_succ_of_le hfirst) hpush with }

theorem fetchMessages_of_eq (hsize : s.bufferSize = 0) (hnext : s.fetcher.nextIndex < s.fetcher.messages.length)
    (hbuffer : s.messageBuffer = []) (n : Nat) :
    Fetched s (s.fetchMessages (n + 1)) (s.fetcher.messages.length - 1) := by
  have hcontext : s.fetcher.messages[s.fetcher.nextIndex]? = some s.fetcher.messages[s.fetcher.nextIndex] :=
    getElem?_eq_getElem (by omega)
  have hlast : s.fetcher.messages[s.fetcher.messages.length - 1]? =
      some s.fetcher.messages[s.fetcher.messages.length - 1] := getElem?_eq_getElem (by omega)
  have hone : bufferOf s.channelIndex s.fetcher.messages (s.fetcher.messages.length - 1) s.fetcher.messages.length =
      [buffered s.channelIndex s.fetcher.messages[s.fetcher.messages.length - 1]] := by
    have hsucc := bufferOf_succ s.channelIndex le_rfl hlast
    rwa [bufferOf_self, nil_append, Nat.sub_add_cancel (by omega)] at hsucc
  rw [fetchMessages, RawFetcher.fetchNext, hcontext]
  dsimp only [Option.map_some]
  rw [if_pos hsize]
  unfold RawFetcher.fetch
  dsimp only
  split
  · refine ⟨rfl, rfl, ?_, rfl, rfl, rfl⟩
    change s.messageBuffer ++ [_] = _
    rw [hbuffer, hone, getLast?_eq_getElem?, hlast]
    rfl
  · rename_i hend
    have hindex : s.fetcher.nextIndex = s.fetcher.messages.length - 1 := by omega
    refine ⟨rfl, Nat.le_antisymm hnext (not_lt.mp hend), ?_, rfl, rfl, rfl⟩
    change s.messageBuffer ++ [_] = _
    rw [hbuffer, hone]
    simp only [hindex]
    rfl

theorem Sound.fetched (h : Sound s) (hready : s.Ready) :
    ∃ first, Fetched s (s.fetchMessages (s.fetcher.messages.length - s.fetcher.nextIndex)) first ∧
      first ≤ s.fetcher.messages.length ∧
      ∀ l ∈ s.channels, first < s.fetcher.messages.length → l.Ready first s.fetcher.messages.length := by
  have hnext := h.next_le
  obtain ⟨first, hfirst, hbuffer⟩ := h.buffer
  by_cases hsize : s.bufferSize = 0
  · have hempty := h.unbuffered hsize
    by_cases hlt : s.fetcher.nextIndex < s.fetcher.messages.length
    · obtain ⟨n, hn⟩ := Nat.exists_eq_add_of_lt hlt
      refine ⟨s.fetcher.messages.length - 1, ?_, Nat.sub_le _ _, ?_⟩
      · have hsub : s.fetcher.messages.length - s.fetcher.nextIndex = n + 1 := by omega
        rw [hsub]
        exact fetchMessages_of_eq hsize hlt hempty n
      · intro l hl _
        have hl := hready (.inr hlt) l hl
        rwa [earliestIndex, hempty, head?_nil, if_pos hsize] at hl
    · have hend : s.fetcher.nextIndex = s.fetcher.messages.length := by omega
      refine ⟨s.fetcher.messages.length, ?_, le_rfl, fun _ _ hlt => absurd hlt (lt_irrefl _)⟩
      rw [hend, Nat.sub_self]
      exact ⟨rfl, hend, by rw [bufferOf_self]; exact hempty, rfl, rfl, rfl⟩
  · refine ⟨first, fetchMessages_of_ne hsize (by omega) hfirst hbuffer, hfirst.trans hnext, ?_⟩
    intro l hl hlt
    have hsome : s.messageBuffer ≠ [] ∨ s.fetcher.nextIndex < s.fetcher.messages.length := by
      by_cases hlt' : s.fetcher.nextIndex < s.fetcher.messages.length
      · exact .inr hlt'
      · refine .inl ?_
        rw [hbuffer, ← length_pos_iff, length_bufferOf hnext]
        omega
    have hl := hready hsome l hl
    unfold earliestIndex at hl
    obtain heq | hlt' := hfirst.eq_or_lt
    · rw [hbuffer, heq, bufferOf_self, head?_nil] at hl
      rwa [if_neg hsize, ← heq] at hl
    · obtain ⟨front, hfront, hindex⟩ := head?_bufferOf s.channelIndex h.indexed hlt' hnext
      rw [hbuffer, hfront] at hl
      dsimp only at hl
      rwa [hindex] at hl

theorem Kept.trim (h : Kept s) : Sound s.trim := by
  obtain ⟨first, hfirst, hbuffer⟩ := h.buffer
  have hlength : s.messageBuffer.length = s.fetcher.nextIndex - first := by rw [hbuffer, length_bufferOf h.next_le]
  unfold Subscriber.trim
  split
  · refine { h with buffer := ⟨first + (s.messageBuffer.length - s.bufferSize.toNat), ?_, ?_⟩, unbuffered := ?_ }
    · change _ ≤ s.fetcher.nextIndex
      omega
    · rw [hbuffer, bufferOf, bufferOf, ← map_drop, window, window, drop_drop]
    · intro hzero
      rw [hzero]
      exact drop_length
  · rename_i hsize
    exact { h with unbuffered := fun hzero => absurd hzero.ge hsize }

theorem Fetched.kept {s' : Subscriber} {channels : List Listener} (hfetched : Fetched s s' first) (h : Sound s)
    (hfirst : first ≤ s.fetcher.messages.length)
    (hdelivered : ∀ l ∈ channels, Delivered s.channelIndex s.fetcher.messages s.fetcher.messages.length l) :
    Kept { s' with channels } where
  indexed := by
    rw [hfetched.messages]
    exact h.indexed
  next_le := by
    rw [hfetched.messages, hfetched.nextIndex]
  buffer := by
    refine ⟨first, ?_, ?_⟩
    · rw [hfetched.nextIndex]
      exact hfirst
    · rw [hfetched.buffer, hfetched.channelIndex, hfetched.messages, hfetched.nextIndex]
  delivered := by
    rw [hfetched.channelIndex, hfetched.messages, hfetched.nextIndex]
    exact hdelivered

theorem runIteration_spec (h : Sound s) (hready : s.Ready) :
    ∃ s', s.runIteration = .ok s' ∧ Sound s' ∧ s'.channelIndex = s.channelIndex := by
  unfold runIteration
  split
  · exact ⟨s, rfl, h, rfl⟩
  · obtain ⟨first, hfetched, hfirst, hlisteners⟩ := h.fetched hready
    obtain ⟨channels, hmapM, hdelivered⟩ := Fallible.mapM_ok s.channels fun l hl =>
      sendTo_spec h.indexed (h.delivered l hl) h.next_le (hlisteners l hl)
    rw [← hfetched.buffer, ← hfetched.channels] at hmapM
    refine ⟨_, bind_eq_ok.mpr ⟨channels, hmapM, rfl⟩, (hfetched.kept h hfirst hdelivered).trim, ?_⟩
    unfold trim
    split <;> exact hfetched.channelIndex

theorem send_sound (h : Sound s) (monotonicEventTime : Int) (data : List UInt8) :
    Sound (s.send monotonicEventTime data) := by
  obtain ⟨first, hfirst, hbuffer⟩ := h.buffer
  refine ⟨⟨?_, ?_, ⟨first, hfirst, ?_⟩, fun l hl => (h.delivered l hl).mono le_rfl⟩, h.unbuffered⟩
  · intro i context hcontext
    change (s.fetcher.messages ++ [_])[i]? = some context at hcontext
    rw [getElem?_append] at hcontext
    split at hcontext
    · exact h.indexed i context hcontext
    · rw [getElem?_singleton] at hcontext
      split at hcontext <;> cases hcontext
      change s.fetcher.messages.length = i
      omega
  · change s.fetcher.nextIndex ≤ (s.fetcher.messages ++ [_]).length
    rw [length_append]
    exact h.next_le.trans (Nat.le_add_right _ _)
  · exact hbuffer.trans (congrArg (fun l => map _ (drop _ l)) (take_append_of_le_length h.next_le)).symm

theorem fetch_sound (h : Sound s) (hsize : s.bufferSize = 0) (hchannels : s.channels = []) :
    Sound { s with fetcher := (s.fetcher.fetch none).2 } := by
  unfold RawFetcher.fetch
  split
  · refine ⟨⟨h.indexed, le_rfl, ⟨s.fetcher.messages.length, le_rfl, ?_⟩, ?_⟩, h.unbuffered⟩
    · exact (h.unbuffered hsize).trans bufferOf_self.symm
    · rw [hchannels]
      exact nofun
  · exact h

theorem addListener_sound (h : Sound s) (dataChannel : Nat) (transferMethod : TransferMethod) :
    Sound (s.addListener dataChannel transferMethod) ∧
      (s.addListener dataChannel transferMethod).channelIndex = s.channelIndex := by
  have hnew : ∀ s : Subscriber, Sound s → Sound (if dataChannel ∈ s.channels.map (·.dataChannel) then s
      else { s with channels := s.channels ++ [{ dataChannel, info := { transferMethod } }] }) := by
    intro s h
    split
    · exact h
    · refine ⟨⟨h.indexed, h.next_le, h.buffer, forall_mem_append.mpr ⟨h.delivered, forall_mem_singleton.mpr ?_⟩⟩,
        h.unbuffered⟩
      exact ⟨rfl, Nat.zero_le _, [], rfl, List.Pairwise.nil, nofun⟩
  unfold addListener
  by_cases hfetch : s.channels = [] ∧ s.bufferSize = 0
  · simp only [if_pos hfetch]
    exact ⟨hnew _ (fetch_sound h hfetch.2 hfetch.1), by split <;> rfl⟩
  · simp only [if_neg hfetch]
    exact ⟨hnew s h, by split <;> rfl⟩

def indexMessages (payloads : List (Int × List UInt8)) : List Context :=
  payloads.mapIdx fun i payload => ⟨i, payload.1, payload.2⟩

section

variable (payloads : List (Int × List UInt8)) (channelIndex : Nat) (bufferSize : Int)

theorem initial_sound :
    Sound (.initial (indexMessages payloads) (indexMessages payloads).length channelIndex bufferSize) := by
  refine ⟨⟨?_, le_rfl, ⟨_, le_rfl, bufferOf_self.symm⟩, fun l hl => absurd hl not_mem_nil⟩, fun _ => rfl⟩
  intro i context hcontext
  change (indexMessages payloads)[i]? = some context at hcontext
  rw [indexMessages, getElem?_mapIdx] at hcontext
  obtain ⟨payload, -, rfl⟩ := Option.map_eq_some_iff.mp hcontext
  rfl

def IterationsReady (s : Subscriber) (events : List Subscriber.Event) : Prop :=
  Fallible.AllSteps (fun s e => e = .runIteration → s.Ready) step events s

instance (s : Subscriber) (events : List Subscriber.Event) : Decidable (IterationsReady s events) :=
  inferInstanceAs (Decidable (Fallible.AllSteps _ _ _ _))

theorem run_sound {events : List Subscriber.Event} (h : Sound s) (hready : IterationsReady s events) :
    ∃ s', s.run events = .ok s' ∧ Sound s' ∧ s'.channelIndex = s.channelIndex := by
  induction events generalizing s with
  | nil => exact ⟨s, rfl, h, rfl⟩
  | cons e events ih =>
    obtain ⟨he, hrest⟩ := hready
    obtain ⟨s1, hstep, hs1, hindex1⟩ : ∃ s1, s.step e = .ok s1 ∧ Sound s1 ∧ s1.channelIndex = s.channelIndex := by
      cases e with
      | send monotonicEventTime data => exact ⟨_, rfl, send_sound h monotonicEventTime data, rfl⟩
      | addListener dataChannel transferMethod => exact ⟨_, rfl, addListener_sound h dataChannel transferMethod⟩
      | runIteration => exact runIteration_spec h (he rfl)
    obtain ⟨s', hrun, hs', hindex'⟩ := ih hs1 (hrest s1 hstep)
    exact ⟨s', bind_eq_ok.mpr ⟨s1, hstep, hrun⟩, hs', hindex'.trans hindex1⟩

/-- When every iteration finds every listener ready, each is sent whole messages, at most once, with their packets in order. -/
theorem proxy_delivery (events : List Subscriber.Event)
    (hready : IterationsReady
      (.initial (indexMessages payloads) (indexMessages payloads).length channelIndex bufferSize) events) :
    ∃ s, (initial (indexMessages payloads) (indexMessages payloads).length channelIndex bufferSize).run
        events = .ok s ∧
      ∀ l ∈ s.channels, ∃ messages : List Context,
        l.sent = messages.flatMap (packets channelIndex) ∧
        (messages.Pairwise fun m m' => m.queueIndex < m'.queueIndex) ∧
        ∀ m ∈ messages, m ∈ s.fetcher.messages ∧
          (packets channelIndex m).map (·.packetIndex) = range (getPacketCount m) ∧
          (∀ p ∈ packets channelIndex m, p.packetCount = getPacketCount m ∧ p.queueIndex = m.queueIndex) ∧
          (packets channelIndex m).flatMap (·.data) = m.data := by
  obtain ⟨s, hrun, hs, hindex⟩ := run_sound (initial_sound payloads channelIndex bufferSize) hready
  refine ⟨s, hrun, ?_⟩
  intro l hl
  obtain ⟨messages, hsent, hpairwise, hmem⟩ := (hs.delivered l hl).sent
  rw [hindex] at hsent
  refine ⟨messages, hsent, hpairwise, ?_⟩
  intro m hm
  refine ⟨(hmem m hm).1, by simp [packets, Function.comp_def, packMessage], ?_, flatMap_data_packets channelIndex m⟩
  intro p hp
  obtain ⟨i, -, rfl⟩ := mem_map.mp hp
  exact ⟨rfl, rfl⟩

end

/-- A subscriber that keeps everything, with a listener from the start. -/
theorem proxy_delivery_kept :
    ∃ s, (initial [] 0 3 (-1)).run
        [.addListener 0 .lossless, .send 10 [1, 2], .send 20 [3], .runIteration, .send 30 [], .runIteration] = .ok s ∧
      ∀ l ∈ s.channels, ∃ messages : List Context, l.sent = messages.flatMap (packets 3) ∧
        (messages.Pairwise fun m m' => m.queueIndex < m'.queueIndex) := by
  have hready : IterationsReady (.initial (indexMessages []) (indexMessages []).length 3 (-1))
      [.addListener 0 .lossless, .send 10 [1, 2], .send 20 [3], .runIteration, .send 30 [], .runIteration] := by
    decide +kernel
  obtain ⟨s, hrun, hall⟩ := proxy_delivery [] 3 (-1) _ hready
  refine ⟨s, hrun, ?_⟩
  intro l hl
  obtain ⟨messages, hsent, hpairwise, -⟩ := hall l hl
  exact ⟨messages, hsent, hpairwise⟩

/-- A listener that joins behind the buffer is sent the first packet twice, and one that skips to the last message is
sent it again when there is no new one. -/
theorem packets_sent_twice :
    (∃ s, (initial [] 0 3 1).run
        [.send 10 [1], .send 20 [2], .runIteration, .addListener 0 .lossless, .runIteration] = .ok s ∧
      s.channels.map (fun l => l.sent.map fun p => (p.queueIndex, p.packetIndex)) = [[(1, 0), (1, 0)]]) ∧
    (∃ s, (initial [] 0 3 1).run
        [.addListener 0 .subsample, .send 10 [1], .runIteration, .runIteration] = .ok s ∧
      s.channels.map (fun l => l.sent.map fun p => (p.queueIndex, p.packetIndex)) = [[(0, 0), (0, 0)]]) := by
  decide +kernel

end RobotCode.Network
