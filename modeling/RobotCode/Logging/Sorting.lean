import RobotCode.Logging.LogFiles

/-!
# The sorter of a set of parts sorts

The logger promises that its files are nearly sorted: once a message comes from long enough after the start
of the log, no later one is older than the newest one by more than the out of order duration. A message that
is older than the newest one of the current file by more than that is then before everything unread. The
sorter lets go of a message only then, so what it returns is in order and without duplicates.
-/

namespace RobotCode.Logging

open KeyedSet UnpackedMessageHeader MessageReader

/-- The order that the logger promises: after a message from `start + duration` or later, none is older than one before it by
more than `duration`. -/
def OutOfOrderBounded (start : Int) (duration : Nat) (stream : List UnpackedMessageHeader) : Prop :=
  ∀ k, ∀ hk : k < stream.length, (∃ a ∈ stream.take k, start + duration ≤ a.monotonicSentTime) →
    ∀ a ∈ stream.take k, a.monotonicSentTime - duration ≤ (stream.get ⟨k, hk⟩).monotonicSentTime

instance (start : Int) (duration : Nat) (stream : List UnpackedMessageHeader) :
    Decidable (OutOfOrderBounded start duration stream) :=
  inferInstanceAs (Decidable (∀ k, ∀ _ : k < stream.length, _))

theorem OutOfOrderBounded.le {start : Int} {duration : Nat} {before after : List UnpackedMessageHeader}
    {a b m : UnpackedMessageHeader} (h : OutOfOrderBounded start duration (before ++ after)) (ha : a ∈ before)
    (hstart : start + duration ≤ a.monotonicSentTime) (hb : b ∈ before) (hm : m ∈ after) :
    b.monotonicSentTime - duration ≤ m.monotonicSentTime := by
  obtain ⟨i, hi, rfl⟩ := List.mem_iff_getElem.mp hm
  have hk : before.length + i < (before ++ after).length := by
    rw [List.length_append]
    omega
  have hmem : ∀ c ∈ before, c ∈ (before ++ after).take (before.length + i) := by
    intro c hc
    rw [List.take_append]
    exact List.mem_append_left _ (by rwa [List.take_of_length_le (Nat.le_add_right _ _)])
  have := h _ hk ⟨a, hmem a ha, hstart⟩ b (hmem b hb)
  simpa using this

def BootsKnown (parts : LogParts) (bootCounts : Nat → Option Nat) (messages : List UnpackedMessageHeader) : Prop :=
  ∀ m ∈ messages, m.monotonicRemoteTime.isSome = true →
    (bootCounts (parts.sourceNodeIndex m.channelIndex)).isSome = true

instance (parts : LogParts) (bootCounts : Nat → Option Nat) (messages : List UnpackedMessageHeader) :
    Decidable (BootsKnown parts bootCounts messages) :=
  inferInstanceAs (Decidable (∀ m ∈ messages, _))

def UnpackedMessageHeader.key (boot : Nat) (m : UnpackedMessageHeader) : MessageKey :=
  ⟨m.monotonicSentTime, m.channelIndex, ⟨boot, m.queueIndex⟩⟩

section

variable {parts : LogParts} {duration : Nat} {stream read : List UnpackedMessageHeader}

/-! ### The reader -/

/-- The reader is in the middle of `stream`, with `read` behind it. The newest timestamp is that of the
current file only. -/
structure Reads (parts : LogParts) (duration : Nat) (stream read : List UnpackedMessageHeader)
    (r : PartsMessageReader) : Prop where
  stream_eq : stream = read ++ r.unread
  start_eq : r.monotonicStartTime = parts.monotonicStartTime
  duration_eq : r.messageReader.maxOutOfOrderDuration = duration
  next_duration_eq : ∀ f ∈ r.nextParts, f.maxOutOfOrderDuration = duration
  newest : r.messageReader.newestTimestamp = minTime ∨
    ∃ a ∈ read, a.monotonicSentTime = r.messageReader.newestTimestamp
  afterStart : r.afterStart = true → ∃ a ∈ read, parts.monotonicStartTime + duration ≤ a.monotonicSentTime
  boots : BootsKnown parts r.messageReader.bootCounts r.messageReader.unread
  next_boots : ∀ f ∈ r.nextParts, BootsKnown parts f.bootCounts f.messages

variable {r : PartsMessageReader}

theorem Reads.nextLog (h : Reads parts duration stream read r) (hdone : ¬ r.done = true)
    (hempty : r.messageReader.unread = []) : Reads parts duration stream read r.nextLog := by
  have hstream : stream = read ++ r.nextLog.unread := by
    rw [PartsMessageReader.unread_nextLog hdone hempty]
    exact h.stream_eq
  revert hstream
  rw [PartsMessageReader.nextLog]
  split
  · intro hstream
    exact { h with stream_eq := hstream }
  · next f rest hparts =>
    intro hstream
    have hf : f ∈ r.nextParts := by simp [hparts]
    have hrest : ∀ g ∈ rest, g ∈ r.nextParts := by simp +contextual [hparts]
    exact {
      stream_eq := hstream
      start_eq := h.start_eq
      duration_eq := h.next_duration_eq f hf
      next_duration_eq := fun g hg => h.next_duration_eq g (hrest g hg)
      newest := .inl rfl
      afterStart := h.afterStart
      boots := h.next_boots f hf
      next_boots := fun g hg => h.next_boots g (hrest g hg) }

/-- What there is to know about a message that was read: the newest timestamp of the file is one of the
times read so far. -/
structure JustRead (parts : LogParts) (duration : Nat) (stream read : List UnpackedMessageHeader)
    (m : UnpackedMessageHeader) (r : PartsMessageReader) : Prop where
  reads : Reads parts duration stream (read ++ [m]) r
  newest : ∃ a ∈ read ++ [m], a.monotonicSentTime = r.newestTimestamp
  boots : BootsKnown parts r.messageReader.bootCounts [m]

theorem Reads.accept {m : UnpackedMessageHeader} {rest : List UnpackedMessageHeader}
    (hb : OutOfOrderBounded parts.monotonicStartTime duration stream) (h : Reads parts duration stream read r)
    (hdone : ¬ r.done = true) (hunread : r.messageReader.unread = m :: rest) {reader : MessageReader}
    (hreader : reader = { r.messageReader with
      unread := rest, newestTimestamp := max r.messageReader.newestTimestamp m.monotonicSentTime }) :
    ((r.accept m reader).afterStart = true →
      m.monotonicSentTime ≥ (r.accept m reader).newestTimestamp - reader.maxOutOfOrderDuration) ∧
      JustRead parts duration stream read m (r.accept m reader) := by
  have hnewest : ∃ a ∈ read ++ [m],
      a.monotonicSentTime = max r.messageReader.newestTimestamp m.monotonicSentTime := by
    have hm := m.isTime.1
    obtain hmin | hold := h.newest
    · exact ⟨m, by simp, by omega⟩
    · obtain ⟨a, ha, hnewest⟩ := hold
      by_cases hlt : m.monotonicSentTime ≤ a.monotonicSentTime
      · exact ⟨a, by simp [ha], by omega⟩
      · exact ⟨m, by simp, by omega⟩
  have hstream : stream = read ++ m :: (rest ++ r.nextParts.flatMap LogFile.messages) := by
    rw [h.stream_eq, PartsMessageReader.unread, if_neg hdone, hunread, List.cons_append]
  have hduration : reader.maxOutOfOrderDuration = duration := by rw [hreader, ← h.duration_eq]
  have hafter : (r.accept m reader).afterStart = true →
      (∃ a ∈ read, parts.monotonicStartTime + duration ≤ a.monotonicSentTime) ∨
        parts.monotonicStartTime + duration < m.monotonicSentTime := by
    intro hafter
    rw [PartsMessageReader.accept, Bool.or_eq_true, decide_eq_true_eq, h.start_eq, hduration] at hafter
    exact hafter.imp_left h.afterStart
  constructor
  · intro hstart
    -- The newest message of the file was read before, or is this one.
    obtain ⟨a, ha, hmax⟩ := hnewest
    have haccept : (r.accept m reader).newestTimestamp = a.monotonicSentTime := by
      rw [hmax, PartsMessageReader.accept, hreader]
    rw [haccept, hduration]
    rw [List.mem_append, List.mem_singleton] at ha
    cases ha with
    | inr heq =>
      rw [heq]
      omega
    | inl hread =>
      rw [hstream] at hb
      obtain hold | hnew := hafter hstart
      · obtain ⟨b, hbmem, hbstart⟩ := hold
        exact hb.le hbmem hbstart hread List.mem_cons_self
      · by_cases hold : parts.monotonicStartTime + duration ≤ a.monotonicSentTime
        · exact hb.le hread hold hread List.mem_cons_self
        · omega
  · have hboots := h.boots
    rw [hunread] at hboots
    refine ⟨{
      stream_eq := ?_
      start_eq := h.start_eq
      duration_eq := hduration
      next_duration_eq := h.next_duration_eq
      newest := .inr ?_
      afterStart := ?_
      boots := ?_
      next_boots := h.next_boots }, ?_, ?_⟩
    · simp [hstream, PartsMessageReader.accept, PartsMessageReader.unread, hdone, hreader]
    · simpa [PartsMessageReader.accept, hreader] using hnewest
    · intro hstart
      obtain hold | hnew := hafter hstart
      · obtain ⟨a, ha, hle⟩ := hold
        exact ⟨a, List.mem_append_left _ ha, hle⟩
      · exact ⟨m, by simp, hnew.le⟩
    · rw [PartsMessageReader.accept, hreader]
      exact fun m' hm' => hboots m' (List.mem_cons_of_mem m hm')
    · simpa [PartsMessageReader.accept, hreader] using hnewest
    · rw [PartsMessageReader.accept, hreader]
      intro m' hm'
      rw [List.mem_singleton.mp hm']
      exact hboots m List.mem_cons_self

theorem Reads.readMessage
    (hb : OutOfOrderBounded parts.monotonicStartTime duration stream) (h : Reads parts duration stream read r) :
    (r.unread = [] ∧ ∃ r', r.readMessage = .ok (none, r') ∧ r'.unread = [] ∧ Reads parts duration stream read r') ∨
      ∃ m r', r.unread = m :: r'.unread ∧ r.readMessage = .ok (some m, r') ∧
        JustRead parts duration stream read m r' := by
  fun_induction PartsMessageReader.readMessage r with
  | case1 r hdone =>
    left
    have hempty : r.unread = [] := by rw [PartsMessageReader.unread, if_pos hdone]
    have hempty' : ({ r with newestTimestamp := maxTime } : PartsMessageReader).unread = [] := by
      rw [PartsMessageReader.unread, if_pos hdone]
    refine ⟨hempty, _, rfl, hempty', { h with stream_eq := ?_ }⟩
    rw [h.stream_eq, hempty, hempty']
  | case2 r hdone m reader hread r' hcheck =>
    obtain ⟨rest, hunread, hreader⟩ := readMessage_some hread
    exact absurd ((h.accept hb hdone hunread hreader).1 hcheck.1) hcheck.2
  | case3 r hdone m reader hread r' hcheck =>
    right
    obtain ⟨rest, hunread, hreader⟩ := readMessage_some hread
    refine ⟨m, r.accept m reader, ?_, rfl, (h.accept hb hdone hunread hreader).2⟩
    simp [PartsMessageReader.unread, PartsMessageReader.accept, hdone, hunread, hreader]
  | case4 r hdone reader hread ih =>
    have hempty := unread_of_readMessage_none hread
    rw [← PartsMessageReader.unread_nextLog hdone hempty]
    exact ih (h.nextLog hdone hempty)

/-! ### The sorter -/

namespace LogPartsSorter

def content (parts : LogParts) (s : LogPartsSorter) : Set MessageKey :=
  keys Message.key s.messages ∪ keys (key parts.bootCount) s.partsMessageReader.unread

def left (s : LogPartsSorter) : Nat := s.messages.length + s.partsMessageReader.unread.length

/-- The sorter has read `read`, and what it has returned is not newer than what is left. -/
structure Sorts (parts : LogParts) (duration : Nat) (stream read : List UnpackedMessageHeader)
    (s : LogPartsSorter) : Prop where
  parts_eq : s.parts = parts
  reads : Reads parts duration stream read s.partsMessageReader
  ordered : Ordered Message.key s.messages
  unpacked : ∀ m ∈ s.messages, m.data ∈ stream ∧ m.timestamp.boot = parts.bootCount
  sortedUntil : s.sortedUntil = minTime ∨ s.partsMessageReader.unread = [] ∨
    s.sortedUntil ≠ maxTime ∧ ∃ a ∈ read, s.sortedUntil = a.monotonicSentTime - duration
  last_le : ∀ m ∈ s.messages, s.lastMessageTime ≤ m.timestamp.time
  last_le_unread : ∀ m ∈ s.partsMessageReader.unread, s.lastMessageTime ≤ m.monotonicSentTime

variable {s : LogPartsSorter}

theorem exists_unpack {bootCounts : Nat → Option Nat} {m : UnpackedMessageHeader}
    (h : BootsKnown parts bootCounts [m]) : ∃ message, unpack parts bootCounts m = .ok message ∧
      message.key = m.key parts.bootCount ∧ message.data = m ∧ message.timestamp.boot = parts.bootCount := by
  rw [unpack]
  by_cases hremote : m.monotonicRemoteTime.isSome = true
  · obtain ⟨boot, hboot⟩ := Option.isSome_iff_exists.mp (h m List.mem_cons_self hremote)
    rw [if_pos hremote, hboot]
    exact ⟨_, rfl, rfl, rfl, rfl⟩
  · rw [if_neg hremote]
    exact ⟨_, rfl, rfl, rfl, rfl⟩

variable {s' : LogPartsSorter} {rest : List Message} {m : Message}

theorem Sorts.lt_unread (hb : OutOfOrderBounded parts.monotonicStartTime duration stream)
    (h : Sorts parts duration stream read s) (hmessages : s.messages = m :: rest)
    (hsorted : s.FrontIsSorted) : ∀ u ∈ s.partsMessageReader.unread, m.timestamp.time < u.monotonicSentTime := by
  intro u hu
  obtain ⟨⟨m', hm', hlt⟩, hstart⟩ := hsorted
  obtain rfl : m = m' := by simpa [hmessages] using hm'
  obtain hmin | hempty | ⟨-, a, ha, huntil⟩ := h.sortedUntil
  · have := m.isTime.1
    omega
  · simp [hempty] at hu
  · rw [h.parts_eq] at hstart
    have hstream := h.reads.stream_eq
    rw [hstream] at hb
    have := hb.le ha (by omega) ha hu
    omega

theorem Sorts.queue (hmax : duration = 0 → ∀ m ∈ stream, m.monotonicSentTime ≠ maxTime)
    (h : Sorts parts duration stream read s) {m : UnpackedMessageHeader} {r : PartsMessageReader} {message : Message}
    (hunread : s.partsMessageReader.unread = m :: r.unread) (hread : JustRead parts duration stream read m r)
    (hkey : message.key = m.key parts.bootCount) (hdata : message.data = m)
    (hboot : message.timestamp.boot = parts.bootCount) :
    Sorts parts duration stream (read ++ [m]) (s.queue message r) ∧
      (s.queue message r).content parts = s.content parts ∧ (s.queue message r).left ≤ s.left := by
  have hstream : ∀ a ∈ read ++ [m], a ∈ stream := by
    intro a ha
    rw [hread.reads.stream_eq]
    exact List.mem_append_left _ ha
  refine ⟨{
    parts_eq := h.parts_eq
    reads := hread.reads
    ordered := h.ordered.insert message
    unpacked := ?_
    sortedUntil := ?_
    last_le := ?_
    last_le_unread := ?_ }, ?_, ?_⟩
  · intro a ha
    obtain heq | hmem := eq_or_mem_of_mem_insert ha
    · exact heq ▸ ⟨hdata ▸ hstream m (by simp), hboot⟩
    · exact h.unpacked a hmem
  · obtain ⟨a, ha, hnewest⟩ := hread.newest
    rw [LogPartsSorter.queue, hread.reads.duration_eq]
    dsimp only
    split
    · right
      right
      have hle := a.isTime.2
      have hne : duration = 0 → a.monotonicSentTime ≠ maxTime := fun hzero => hmax hzero a (hstream a ha)
      exact ⟨by omega, a, ha, by omega⟩
    · exact .inl rfl
  · intro a ha
    obtain heq | hmem := eq_or_mem_of_mem_insert ha
    · have htime : message.timestamp.time = m.monotonicSentTime := congrArg MessageKey.time hkey
      rw [heq, htime]
      exact h.last_le_unread m (by simp [hunread])
    · exact h.last_le a hmem
  · intro a ha
    exact h.last_le_unread a (by rw [hunread]; exact List.mem_cons_of_mem m ha)
  · rw [content, content, hunread, LogPartsSorter.queue, keys_insert, keys_cons, hkey]
    simp only [Set.union_assoc, Set.union_left_comm]
  · have hlength := length_insert_le Message.key message s.messages
    rw [left, left, hunread, LogPartsSorter.queue, List.length_cons]
    dsimp only
    omega

section

variable (hb : OutOfOrderBounded parts.monotonicStartTime duration stream) (hmax : duration = 0 → ∀ m ∈ stream, m.monotonicSentTime ≠ maxTime) (h : Sorts parts duration stream read s)

include hb hmax h

theorem Sorts.queueUntilSorted :
    ∃ s' read', s.queueUntilSorted = .ok s' ∧ Sorts parts duration stream read' s' ∧
      s'.content parts = s.content parts ∧ s'.left ≤ s.left ∧ (s'.FrontIsSorted ∨ s'.sortedUntil = maxTime) := by
  induction hunread : s.partsMessageReader.unread generalizing s read with
  | nil =>
    rw [queueUntilSorted_eq]
    split
    · next hsorted => exact ⟨s, read, rfl, h, rfl, le_rfl, .inl hsorted⟩
    · obtain ⟨-, r, hread, hempty, hreads⟩ | ⟨m, r, hcons, -, -⟩ := h.reads.readMessage hb
      · rw [hread]
        refine ⟨_, read, rfl, {
          parts_eq := h.parts_eq
          reads := hreads
          ordered := h.ordered
          unpacked := h.unpacked
          sortedUntil := .inr (.inl hempty)
          last_le := h.last_le
          last_le_unread := by simp [hempty] }, ?_, ?_, .inr rfl⟩
        · rw [content, content, hempty, hunread]
        · rw [left, left, hempty, hunread]
      · simp [hunread] at hcons
  | cons m rest ih =>
    rw [queueUntilSorted_eq]
    split
    · next hsorted => exact ⟨s, read, rfl, h, rfl, le_rfl, .inl hsorted⟩
    · obtain ⟨hempty, -⟩ | ⟨m', r, hcons, hread, hjust⟩ := h.reads.readMessage hb
      · simp [hunread] at hempty
      · obtain ⟨rfl, rfl⟩ : m = m' ∧ rest = r.unread := by simpa [hunread] using hcons
        obtain ⟨message, hunpack, hkey, hdata, hboot⟩ := exists_unpack hjust.boots
        obtain ⟨hqueue, hcontent, hleft⟩ := h.queue hmax hcons hjust hkey hdata hboot
        obtain ⟨s', read', hloop, hs', hcontent', hleft', hstop⟩ := ih hqueue rfl
        rw [hread, h.parts_eq]
        simp only [bind, Except.bind, hunpack]
        exact ⟨s', read', hloop, hs', hcontent'.trans hcontent, hleft'.trans hleft, hstop⟩

omit hb hmax h in
theorem Sorts.unread_eq_nil (h : Sorts parts duration stream read s) (huntil : s.sortedUntil = maxTime) :
    s.partsMessageReader.unread = [] := by
  obtain hmin | hempty | ⟨hne, -⟩ := h.sortedUntil
  · exact absurd (hmin.symm.trans huntil) (by decide)
  · exact hempty
  · exact absurd huntil hne

theorem Sorts.fill :
    ∃ s' read', s.fill = .ok s' ∧ Sorts parts duration stream read' s' ∧ s'.content parts = s.content parts ∧
      s'.left ≤ s.left ∧ (s'.FrontIsSorted ∨ s'.sortedUntil = maxTime) := by
  rw [LogPartsSorter.fill]
  split
  · exact h.queueUntilSorted hb hmax
  · next huntil => exact ⟨s, read, rfl, h, rfl, le_rfl, .inr (not_not.mp huntil)⟩

omit hb hmax h in
theorem fill_setLast (h : s.FrontIsSorted ∨ s.sortedUntil = maxTime) (t : Int) :
    (s.setLast t).fill = .ok (s.setLast t) := by
  rw [fill]
  split
  · next huntil =>
    have hsorted : (s.setLast t).FrontIsSorted := h.resolve_right huntil
    rw [queueUntilSorted_eq, if_pos hsorted]
  · rfl

omit hb hmax h in
theorem front_of_messages_nil (hfill : s.fill = .ok s') (hmessages : s'.messages = []) :
    s.front = .ok (none, s'.setLast maxTime) := by
  simp only [front, hfill, bind, Except.bind, hmessages, pure, Except.pure]

omit hb hmax h in
theorem ended_of_messages_nil (hfill : s.fill = .ok s')
    (hstop : s'.FrontIsSorted ∨ s'.sortedUntil = maxTime) (hmessages : s'.messages = []) : source.Ended s := by
  have hagain := front_of_messages_nil (fill_setLast hstop maxTime) hmessages
  apply Pull.Ended.of_invariant (P := fun t => t.front = .ok (none, s'.setLast maxTime))
  · intro t ht
    exact ⟨_, ht, hagain⟩
  · exact front_of_messages_nil hfill hmessages

omit hb hmax h in
theorem front_of_messages_cons (hfill : s.fill = .ok s')
    (hmessages : s'.messages = m :: rest) (hlast : s'.lastMessageTime ≤ m.timestamp.time) :
    s.front = .ok (some m, s'.setLast m.timestamp.time) := by
  simp only [front, hfill, bind, Except.bind, hmessages, pure, Except.pure, ge_iff_le, if_pos hlast]

omit hb hmax h in
theorem Sorts.popFront (h : Sorts parts duration stream read s) (hmessages : s.messages = m :: rest)
    (hunread : ∀ u ∈ s.partsMessageReader.unread, m.timestamp.time < u.monotonicSentTime) :
    Sorts parts duration stream read (s.setLast m.timestamp.time).popFront := by
  have hordered := h.ordered
  rw [hmessages] at hordered
  obtain ⟨hm, hrest⟩ := List.pairwise_cons.mp hordered
  have htail : (s.setLast m.timestamp.time).popFront.messages = rest := by
    rw [LogPartsSorter.popFront, setLast, hmessages, List.tail_cons]
  exact {
    parts_eq := h.parts_eq
    reads := h.reads
    ordered := by
      rw [htail]
      exact hrest
    unpacked := fun a ha => h.unpacked a (List.mem_of_mem_tail ha)
    sortedUntil := h.sortedUntil
    last_le := fun a ha => MessageKey.time_le_of_lt (hm a (htail ▸ ha))
    last_le_unread := fun u hu => (hunread u hu).le }

/-- From every state the sorter delivers the messages that are left, in order and each once. -/
theorem Sorts.delivers :
    ∃ l, source.Delivers s l ∧ Ordered Message.key l ∧ keys Message.key l = s.content parts ∧
      ∀ m ∈ l, m.data ∈ stream ∧ m.timestamp.boot = parts.bootCount := by
  induction hn : s.left using Nat.strongRecOn generalizing s read with
  | ind n ih =>
  obtain ⟨s', read', hfill, hs', hcontent, hleft, hstop⟩ := h.fill hb hmax
  cases hmessages : s'.messages with
  | nil =>
    -- Without a front, the loop has stopped at the end of the files.
    have hempty : s'.partsMessageReader.unread = [] := by
      apply hs'.unread_eq_nil
      apply hstop.resolve_left
      intro hsorted
      simp [FrontIsSorted, hmessages] at hsorted
    refine ⟨[], ended_of_messages_nil hfill hstop hmessages, List.Pairwise.nil, ?_, by simp⟩
    rw [← hcontent, content, hmessages, hempty]
    simp [keys]
  | cons m rest =>
    have hunread : ∀ u ∈ s'.partsMessageReader.unread, m.timestamp.time < u.monotonicSentTime := by
      obtain hsorted | huntil := hstop
      · exact hs'.lt_unread hb hmessages hsorted
      · simp [hs'.unread_eq_nil huntil]
    have hpop := hs'.popFront hmessages hunread
    have htail : (s'.setLast m.timestamp.time).popFront.messages = rest := by
      rw [LogPartsSorter.popFront, setLast, hmessages, List.tail_cons]
    have hshrinks : (s'.setLast m.timestamp.time).popFront.left < n := by
      have : s'.left = rest.length + 1 + s'.partsMessageReader.unread.length := by rw [left, hmessages, List.length_cons]
      have : (s'.setLast m.timestamp.time).popFront.partsMessageReader = s'.partsMessageReader := rfl
      rw [left, htail, this]
      omega
    obtain ⟨l, hdelivers, hordered, hkeys, hunpacked⟩ := ih _ hshrinks hpop rfl
    have hlast := hs'.last_le m (by simp [hmessages])
    refine ⟨m :: l, ⟨_, front_of_messages_cons hfill hmessages hlast, ?_, _, rfl, hdelivers⟩, ?_, ?_, ?_⟩
    · have hagain := front_of_messages_cons (fill_setLast hstop m.timestamp.time) hmessages le_rfl
      exact hagain
    · apply List.Pairwise.cons _ hordered
      intro a ha
      have hmem : a.key ∈ keys Message.key l := mem_keys.mpr ⟨a, ha, rfl⟩
      rw [hkeys] at hmem
      obtain hmessage | hheader := hmem
      · have hordered' := hs'.ordered
        rw [hmessages] at hordered'
        obtain ⟨b, hb', hkey⟩ := mem_keys.mp hmessage
        rw [← hkey]
        exact (List.pairwise_cons.mp hordered').1 b (htail ▸ hb')
      · obtain ⟨u, hu, hkey⟩ := mem_keys.mp hheader
        rw [← hkey]
        exact MessageKey.lt_of_time_lt (hunread u hu)
    · have hcontent' : s'.content parts = {m.key} ∪ (s'.setLast m.timestamp.time).popFront.content parts := by
        rw [content, content, hmessages, htail, keys_cons, Set.union_assoc]
        rfl
      rw [keys_cons, hkeys, ← hcontent, hcontent']
    · intro a ha
      obtain heq | hmem := List.mem_cons.mp ha
      · exact heq ▸ hs'.unpacked m (by simp [hmessages])
      · exact hunpacked a hmem

end

theorem sorts_ofParts {first : LogFile} {rest : List LogFile}
    (hduration : ∀ f ∈ first :: rest, f.maxOutOfOrderDuration = duration)
    (hboots : ∀ f ∈ first :: rest, BootsKnown parts f.bootCounts f.messages) :
    Sorts parts duration ((first :: rest).flatMap LogFile.messages) [] (ofParts parts first rest) where
  parts_eq := rfl
  reads := {
    stream_eq := rfl
    start_eq := rfl
    duration_eq := hduration first List.mem_cons_self
    next_duration_eq := fun f hf => hduration f (List.mem_cons_of_mem first hf)
    newest := .inl rfl
    afterStart := by simp [ofParts]
    boots := hboots first List.mem_cons_self
    next_boots := fun f hf => hboots f (List.mem_cons_of_mem first hf) }
  ordered := List.Pairwise.nil
  unpacked := by simp [ofParts]
  sortedUntil := .inl rfl
  last_le := by simp [ofParts]
  last_le_unread := fun m _ => m.isTime.1

section

variable (parts : LogParts) (first : LogFile) (rest : List LogFile) (duration : Nat) (hduration : ∀ f ∈ first :: rest, f.maxOutOfOrderDuration = duration) (hboots : ∀ f ∈ first :: rest, BootsKnown parts f.bootCounts f.messages) (hb : OutOfOrderBounded parts.monotonicStartTime duration ((first :: rest).flatMap LogFile.messages)) (hmax : duration = 0 → ∀ m ∈ (first :: rest).flatMap LogFile.messages, m.monotonicSentTime ≠ maxTime)

include hduration hboots hb hmax

theorem ofParts_delivers :
    ∃ l, source.Delivers (ofParts parts first rest) l ∧ Ordered Message.key l ∧ keys Message.key l =
        keys (key parts.bootCount) ((first :: rest).flatMap LogFile.messages) ∧
      ∀ m ∈ l, m.data ∈ (first :: rest).flatMap LogFile.messages ∧ m.timestamp.boot = parts.bootCount := by
  obtain ⟨l, hdelivers, hordered, hkeys, hunpacked⟩ := (sorts_ofParts hduration hboots).delivers hb hmax
  refine ⟨l, hdelivers, hordered, ?_, hunpacked⟩
  rw [hkeys, content, show (ofParts parts first rest).messages = [] from rfl]
  simp [keys, ofParts, PartsMessageReader.unread, ofFile]

/-- Alternating `Front` and `PopFront` returns the distinct messages in order, and then nothing. No check fails. -/
theorem sorts_stream :
    ∃ emitted : List Message, emitted.Pairwise (fun a b => a.key < b.key) ∧
      (∀ k, k ∈ emitted.map Message.key ↔
        k ∈ ((first :: rest).flatMap LogFile.messages).map (key parts.bootCount)) ∧
      (∀ m ∈ emitted, m.data ∈ (first :: rest).flatMap LogFile.messages) ∧
      ∀ n, source.rounds n (ofParts parts first rest) = .ok (Pull.shows emitted n) := by
  obtain ⟨l, hdelivers, hordered, hkeys, hunpacked⟩ := ofParts_delivers parts first rest duration hduration hboots hb hmax
  refine ⟨l, hordered, ?_, fun m hm => (hunpacked m hm).1, hdelivers.rounds⟩
  intro k
  exact Set.ext_iff.mp hkeys k

end

/-! Two files, the second of which starts with a message that is older than the last of the first, and then
repeats that one. -/

def startedParts : LogParts := { monotonicStartTime := 100, bootCount := 1 }

def firstPart : LogFile where
  maxOutOfOrderDuration := 10
  messages := [{ channelIndex := 0, monotonicSentTime := 95, queueIndex := 1 },
    { channelIndex := 1, monotonicSentTime := 90, queueIndex := 0 },
    { channelIndex := 0, monotonicSentTime := 115, queueIndex := 2 }]

def secondPart : LogFile where
  maxOutOfOrderDuration := 10
  messages := [{ channelIndex := 1, monotonicSentTime := 108, queueIndex := 1 },
    { channelIndex := 0, monotonicSentTime := 115, queueIndex := 2 },
    { channelIndex := 1, monotonicSentTime := 126, queueIndex := 2 }]

theorem sorts_stream_two_files :
    ∃ emitted : List Message, emitted.Pairwise (fun a b => a.key < b.key) ∧
      (∀ k, k ∈ emitted.map Message.key ↔
        k ∈ ([firstPart, secondPart].flatMap LogFile.messages).map (key 1)) ∧
      (∀ m ∈ emitted, m.data ∈ [firstPart, secondPart].flatMap LogFile.messages) ∧
      ∀ n, source.rounds n (ofParts startedParts firstPart [secondPart]) = .ok (Pull.shows emitted n) :=
  sorts_stream startedParts firstPart [secondPart] 10 (by decide) (by decide) (by decide) (by decide)

/-! Without any tolerance, a message at the largest time makes the sorter take its files for finished. -/

def latestPart : LogFile where
  maxOutOfOrderDuration := 0
  messages := [{ channelIndex := 0, monotonicSentTime := 0, queueIndex := 0 },
    { channelIndex := 0, monotonicSentTime := maxTime, queueIndex := 1 },
    { channelIndex := 1, monotonicSentTime := maxTime, queueIndex := 0 }]

/-- The third message of the file is never returned. -/
theorem message_at_max_time_lost :
    OutOfOrderBounded 0 0 latestPart.messages ∧
      BootsKnown { monotonicStartTime := 0, bootCount := 0 } latestPart.bootCounts latestPart.messages ∧
      ∃ shown, source.rounds 4 (ofParts { monotonicStartTime := 0, bootCount := 0 } latestPart []) = .ok shown ∧
        shown.map (Option.map Message.key) =
          [some ⟨0, 0, ⟨0, 0⟩⟩, some ⟨maxTime, 0, ⟨0, 1⟩⟩, none, none] := by
  exact ⟨by decide, by decide, by decide +kernel⟩

end LogPartsSorter

end

end RobotCode.Logging
