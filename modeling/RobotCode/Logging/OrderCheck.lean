import RobotCode.Logging.Sorting

/-!
# What the reader's check of the order protects

`PartsMessageReader` checks each message against the newest one of the current file, and only once a message came
from more than the out of order duration after the start. `LogPartsSorter` lets go of a message as soon as the newest
one of the current file is newer by more than that duration, and that newest one is no less than the duration after
the start. The two differ at the start itself, and when a file ends: the newest message of the next file starts over.
A message that is older than one already let go then passes the reader and fails the check of the sorter.
-/

namespace RobotCode.Logging

open KeyedSet List Message MessageReader

/-! ### What is read -/

structure Read where
  time : Int
  newest : Int
deriving DecidableEq, Repr

/-- The messages of a file after those up to the time `newest`. -/
def readsAfter (newest : Int) : List UnpackedMessageHeader → List Read
  | [] => []
  | m :: rest => ⟨m.monotonicSentTime, max newest m.monotonicSentTime⟩ :: readsAfter (max newest m.monotonicSentTime) rest

def readsOf (files : List LogFile) : List Read := files.flatMap fun f => readsAfter minTime f.messages

namespace PartsMessageReader

variable {r r' : PartsMessageReader} {m : UnpackedMessageHeader}

def reads (r : PartsMessageReader) : List Read :=
  if r.done then [] else readsAfter r.messageReader.newestTimestamp r.messageReader.unread ++ readsOf r.nextParts

structure Uniform (start : Int) (duration : Nat) (r : PartsMessageReader) : Prop where
  start_eq : r.monotonicStartTime = start
  duration_eq : r.messageReader.maxOutOfOrderDuration = duration
  next_duration_eq : ∀ f ∈ r.nextParts, f.maxOutOfOrderDuration = duration

theorem reads_nextLog (hdone : ¬ r.done = true) (hempty : r.messageReader.unread = []) : r.nextLog.reads = r.reads := by
  rw [nextLog]
  split
  · next hparts => simp [reads, hdone, hempty, hparts, readsAfter, readsOf]
  · next f rest hparts => simp [reads, hdone, hempty, hparts, readsAfter, readsOf, ofFile]

structure Boots (parts : LogParts) (r : PartsMessageReader) : Prop where
  current : BootsKnown parts r.messageReader.bootCounts r.messageReader.unread
  next : ∀ f ∈ r.nextParts, BootsKnown parts f.bootCounts f.messages

theorem Boots.nextLog {parts : LogParts} (h : Boots parts r) : Boots parts r.nextLog := by
  rw [PartsMessageReader.nextLog]
  split
  · exact ⟨h.current, h.next⟩
  · next f rest hparts => exact ⟨h.next f (by simp [hparts]), fun g hg => h.next g (by simp [hparts, hg])⟩

theorem Uniform.nextLog {start : Int} {duration : Nat} (h : Uniform start duration r) :
    Uniform start duration r.nextLog := by
  rw [PartsMessageReader.nextLog]
  split
  · exact ⟨h.start_eq, h.duration_eq, h.next_duration_eq⟩
  · next f rest hparts =>
    exact ⟨h.start_eq, h.next_duration_eq f (by simp [hparts]), fun g hg => h.next_duration_eq g (by simp [hparts, hg])⟩

structure Took (r : PartsMessageReader) (m : UnpackedMessageHeader) (r' : PartsMessageReader) : Prop where
  reads_eq : r.reads = ⟨m.monotonicSentTime, r'.newestTimestamp⟩ :: r'.reads
  uniform : ∀ {start duration}, Uniform start duration r → Uniform start duration r'
  boots : ∀ {parts}, Boots parts r → Boots parts r' ∧ BootsKnown parts r'.messageReader.bootCounts [m]

theorem readMessage_cases (r : PartsMessageReader) :
    (r.reads = [] ∧ ∃ r', r.readMessage = .ok (none, r') ∧ r'.reads = [] ∧
      ∀ {start duration}, Uniform start duration r → Uniform start duration r') ∨
    (∃ m r', r.readMessage = .ok (some m, r') ∧ Took r m r') ∨ r.readMessage = .error .outOfOrder := by
  fun_induction readMessage r with
  | case1 r hdone =>
    exact .inl ⟨if_pos hdone, { r with newestTimestamp := maxTime }, rfl, if_pos hdone,
      fun h => ⟨h.start_eq, h.duration_eq, h.next_duration_eq⟩⟩
  | case2 r hdone m reader hread r' hcheck => exact .inr (.inr rfl)
  | case3 r hdone m reader hread r' hcheck =>
    obtain ⟨rest, hunread, hreader⟩ := readMessage_some hread
    refine .inr (.inl ⟨m, r.accept m reader, rfl, ?_, fun h => ⟨h.start_eq, ?_, h.next_duration_eq⟩, fun h => ?_⟩)
    · simp [reads, accept, hdone, hunread, hreader, readsAfter]
    · rw [accept, hreader]
      exact h.duration_eq
    · have hcurrent := h.current
      rw [hunread] at hcurrent
      rw [accept, hreader]
      refine ⟨⟨fun m' hm' => hcurrent m' (mem_cons_of_mem m hm'), h.next⟩, fun m' hm' => ?_⟩
      exact hcurrent m' (mem_singleton.mp hm' ▸ mem_cons_self)
  | case4 r hdone reader hread ih =>
    have hempty := unread_of_readMessage_none hread
    have hreads := reads_nextLog hdone hempty
    rw [← hreads]
    rcases ih with ⟨hnil, r', hr', hnil', huniform⟩ | ⟨m, r', hr', htook⟩ | herror
    · exact .inl ⟨hnil, r', hr', hnil', fun h => huniform h.nextLog⟩
    · exact .inr (.inl ⟨m, r', hr', hreads ▸ htook.reads_eq, fun h => htook.uniform h.nextLog,
        fun h => htook.boots h.nextLog⟩)
    · exact .inr (.inr herror)

/-- `n` calls of `ReadMessage`. -/
def readMessages : Nat → PartsMessageReader → Except ReadCheck PartsMessageReader
  | 0, r => .ok r
  | n + 1, r => do
      let (_, r) ← r.readMessage
      readMessages n r

def Passes (r : PartsMessageReader) : Prop := ∀ n, ∃ r', r.readMessages n = .ok r'

theorem Passes.next {shown : Option UnpackedMessageHeader} (h : r.Passes)
    (hread : r.readMessage = .ok (shown, r')) : r'.Passes := by
  intro n
  have hnext := h (n + 1)
  rwa [readMessages, hread] at hnext

theorem Passes.of_done (hdone : r.done = true) : r.Passes := by
  intro n
  induction n generalizing r with
  | zero => exact ⟨r, rfl⟩
  | succ n ih =>
    rw [readMessages, PartsMessageReader.readMessage, if_pos hdone]
    exact ih hdone

theorem Passes.of_readMessages {n : Nat} (hread : r.readMessages n = .ok r') (h : r'.Passes) : r.Passes := by
  induction n generalizing r with
  | zero => exact Except.ok.inj hread ▸ h
  | succ n ih =>
    obtain ⟨⟨shown, r1⟩, hread1, hrest⟩ := Fallible.bind_eq_ok.mp hread
    intro k
    cases k with
    | zero => exact ⟨r, rfl⟩
    | succ k =>
      rw [readMessages, hread1]
      exact ih hrest k

end PartsMessageReader

section

variable (start : Int) (duration : Nat)

/-- With `read` read, and before more is read, a message of this time is let go: a newer one of its time tells that
it is sorted. -/
def LetGo (read : List Read) (t : Int) : Prop :=
  ∃ before x after, read = before ++ x :: after ∧ start + duration ≤ x.newest ∧
    ∃ a ∈ before ++ [x], a.time = t ∧ t < x.newest - duration

def Overtaken (stream : List Read) : Prop :=
  ∃ read x after, stream = read ++ x :: after ∧ ∃ t, LetGo start duration read t ∧ x.time < t

end

variable {start : Int} {duration : Nat} {read : List Read} {x : Read} {t : Int}

/-- Something about an element and those before it, in a list with one element more. -/
theorem exists_split_concat {α : Type} {P : List α → α → Prop} {l : List α} {x : α} :
    (∃ before y after, l ++ [x] = before ++ y :: after ∧ P before y) ↔
      (∃ before y after, l = before ++ y :: after ∧ P before y) ∨ P l x := by
  constructor
  · rintro ⟨before, y, after, heq, hP⟩
    rcases eq_nil_or_concat after with rfl | ⟨after, z, rfl⟩
    · obtain ⟨rfl, hxy⟩ := append_inj' heq rfl
      obtain rfl := singleton_inj.mp hxy
      exact .inr hP
    · rw [concat_eq_append, ← cons_append, ← append_assoc] at heq
      obtain ⟨rfl, -⟩ := append_inj' heq rfl
      exact .inl ⟨before, y, after, rfl, hP⟩
  · rintro (⟨before, y, after, rfl, hP⟩ | hP)
    · exact ⟨before, y, after ++ [x], by simp, hP⟩
    · exact ⟨l, x, [], rfl, hP⟩

theorem LetGo.append (h : LetGo start duration read t) (after : List Read) :
    LetGo start duration (read ++ after) t := by
  obtain ⟨before, x, rest, rfl, hletGo⟩ := h
  exact ⟨before, x, rest ++ after, by simp, hletGo⟩

theorem not_letGo_nil : ¬ LetGo start duration [] t := by
  rintro ⟨before, x, after, heq, -⟩
  simp at heq

theorem not_overtaken_nil : ¬ Overtaken start duration [] := by
  rintro ⟨before, x, after, heq, -⟩
  simp at heq

theorem letGo_concat : LetGo start duration (read ++ [x]) t ↔ LetGo start duration read t ∨
      start + duration ≤ x.newest ∧ ∃ a ∈ read ++ [x], a.time = t ∧ t < x.newest - duration :=
  exists_split_concat

theorem overtaken_concat : Overtaken start duration (read ++ [x]) ↔
    Overtaken start duration read ∨ ∃ t, LetGo start duration read t ∧ x.time < t :=
  exists_split_concat

/-! ### The sorter -/

namespace LogPartsSorter

variable {parts : LogParts} {stream : List Read} {s : LogPartsSorter}

def sortedTo (duration : Nat) (newest : Int) : Int :=
  if newest > minTime + duration then newest - duration else minTime

structure Tracks (parts : LogParts) (duration : Nat) (stream read : List Read) (s : LogPartsSorter) : Prop where
  parts_eq : s.parts = parts
  uniform : s.partsMessageReader.Uniform parts.monotonicStartTime duration
  stream_eq : stream = read ++ s.partsMessageReader.reads
  sortedUntil : read = [] ∧ s.sortedUntil = minTime ∨
    (∃ before x, read = before ++ [x] ∧ s.sortedUntil = sortedTo duration x.newest) ∨
    s.sortedUntil = maxTime ∧ s.partsMessageReader.reads = []
  ordered : Ordered key s.messages
  came : ∀ m ∈ s.messages, ∃ x ∈ read, x.time = m.timestamp.time
  kept : ∀ x ∈ read, (∃ m ∈ s.messages, m.timestamp.time = x.time) ∨ x.time ≤ s.lastMessageTime
  letGo : ∀ before x, read = before ++ [x] → ∀ t, LetGo parts.monotonicStartTime duration before t →
    t ≤ s.lastMessageTime

variable {s' : LogPartsSorter} {rest : List Message} {r : PartsMessageReader} {m : Message} {new : List Read}

theorem head_le (h : Ordered key (m :: rest)) {a : Message}
    (ha : a ∈ m :: rest) : m.timestamp.time ≤ a.timestamp.time := by
  rcases mem_cons.mp ha with rfl | ha
  · exact le_rfl
  · exact MessageKey.time_le_of_lt ((pairwise_cons.mp h).1 a ha)

section

variable (h : Tracks parts duration stream read s)

include h

theorem Tracks.le_last (hsorted : ¬ s.FrontIsSorted)
    (hmore : s.partsMessageReader.reads ≠ []) (hletGo : LetGo parts.monotonicStartTime duration read t) :
    t ≤ s.lastMessageTime := by
  rcases h.sortedUntil with ⟨rfl, -⟩ | ⟨before, x, rfl, huntil⟩ | ⟨-, hend⟩
  · exact absurd hletGo not_letGo_nil
  · rcases letGo_concat.mp hletGo with hbefore | ⟨hstart, a, ha, rfl, hlt⟩
    · exact h.letGo before x rfl t hbefore
    · rcases h.kept a ha with ⟨m, hm, htime⟩ | hle
      · -- it is still there, so the front is no newer and sorted
        have hmin := m.isTime.1
        rw [sortedTo, if_pos (by omega)] at huntil
        obtain ⟨m0, rest, hmessages⟩ := exists_cons_of_ne_nil (ne_nil_of_mem hm)
        have hfront := head_le (hmessages ▸ h.ordered) (hmessages ▸ hm)
        refine absurd ⟨⟨m0, by simp [hmessages], ?_⟩, ?_⟩ hsorted
        · omega
        · rw [h.parts_eq, huntil]
          omega
      · exact hle
  · exact absurd hend hmore

omit h in
theorem exists_mem_insert {message : Message} {l : List Message}
    (h : message.timestamp.time = t ∨ ∃ m ∈ l, m.timestamp.time = t) :
    ∃ m ∈ insert key message l, m.timestamp.time = t := by
  obtain ⟨m, hm, rfl⟩ : ∃ m, (m = message ∨ m ∈ l) ∧ m.timestamp.time = t :=
    h.elim (fun htime => ⟨message, .inl rfl, htime⟩) fun ⟨m, hm, htime⟩ => ⟨m, .inr hm, htime⟩
  have hkey : m.key ∈ keys key (insert key message l) := by
    rw [keys_insert]
    exact hm.imp (fun heq => congrArg key heq) fun hm => mem_keys.mpr ⟨m, hm, rfl⟩
  obtain ⟨m', hm', heq⟩ := mem_keys.mp hkey
  exact ⟨m', hm', congrArg MessageKey.time heq⟩

theorem Tracks.queue (hsorted : ¬ s.FrontIsSorted)
    {m : UnpackedMessageHeader} (htook : s.partsMessageReader.Took m r) {message : Message}
    (htime : message.timestamp.time = m.monotonicSentTime) :
    Tracks parts duration stream (read ++ [⟨m.monotonicSentTime, r.newestTimestamp⟩]) (s.queue message r) where
  parts_eq := h.parts_eq
  uniform := htook.uniform h.uniform
  stream_eq := by
    rw [h.stream_eq, htook.reads_eq, append_assoc]
    rfl
  sortedUntil := by
    refine .inr (.inl ⟨read, _, rfl, ?_⟩)
    rw [LogPartsSorter.queue, (htook.uniform h.uniform).duration_eq]
    rfl
  ordered := h.ordered.insert message
  came a ha := by
    rcases eq_or_mem_of_mem_insert ha with rfl | hmem
    · exact ⟨⟨m.monotonicSentTime, r.newestTimestamp⟩, by simp, htime.symm⟩
    · obtain ⟨x, hx, heq⟩ := h.came a hmem
      exact ⟨x, mem_append_left _ hx, heq⟩
  kept x hx := by
    rcases mem_append.mp hx with hx | hx
    · exact (h.kept x hx).imp_left fun hkept => exists_mem_insert (.inr hkept)
    · rw [mem_singleton.mp hx]
      exact .inl (exists_mem_insert (.inl htime))
  letGo before x heq t hletGo := by
    obtain ⟨rfl, -⟩ := append_inj' heq rfl
    exact h.le_last hsorted (by rw [htook.reads_eq]; simp) hletGo

theorem Tracks.ended (hreads : s.partsMessageReader.reads = []) (hreads' : r.reads = [])
    (huniform : r.Uniform parts.monotonicStartTime duration) :
    Tracks parts duration stream read { s with partsMessageReader := r, sortedUntil := maxTime } where
  __ := h
  uniform := huniform
  stream_eq := by rw [h.stream_eq, hreads, hreads']
  sortedUntil := .inr (.inr ⟨rfl, hreads'⟩)

def toEmit (s : LogPartsSorter) : Nat := s.messages.length + s.partsMessageReader.reads.length

def Ready (s : LogPartsSorter) : Prop := s.FrontIsSorted ∨ s.sortedUntil = maxTime

/-- After `read`, the loop has read `new`, and nothing has left the set. -/
structure Filled (parts : LogParts) (duration : Nat) (stream read new : List Read) (s s' : LogPartsSorter) : Prop where
  tracks : Tracks parts duration stream (read ++ new) s'
  ready : s'.Ready
  last_eq : s'.lastMessageTime = s.lastMessageTime
  came : ∀ m ∈ s'.messages, m ∈ s.messages ∨ ∃ x ∈ new, x.time = m.timestamp.time
  stayed : ∀ m ∈ s.messages, ∃ m' ∈ s'.messages, m'.timestamp.time = m.timestamp.time
  arrived : ∀ x ∈ new, ∃ m ∈ s'.messages, m.timestamp.time = x.time
  toEmit_le : s'.toEmit ≤ s.toEmit
  reader : s'.sortedUntil ≠ maxTime → s.partsMessageReader.Passes → s.partsMessageReader.Boots parts →
    s'.partsMessageReader.Passes ∧ s'.partsMessageReader.Boots parts

theorem Tracks.filled (hready : s.Ready) : Filled parts duration stream read [] s s where
  tracks := by rwa [append_nil]
  ready := hready
  last_eq := rfl
  came m hm := .inl hm
  stayed m hm := ⟨m, hm, rfl⟩
  arrived := by simp
  toEmit_le := le_rfl
  reader _ hpasses hboots := ⟨hpasses, hboots⟩

omit h in
theorem unpack_cases (parts : LogParts) (bootCounts : Nat → Option Nat) (m : UnpackedMessageHeader) :
    (∃ message, unpack parts bootCounts m = .ok message ∧ message.timestamp.time = m.monotonicSentTime) ∨
      unpack parts bootCounts m = .error .unknownBoot ∧ ¬ BootsKnown parts bootCounts [m] := by
  by_cases hboots : BootsKnown parts bootCounts [m]
  · obtain ⟨message, hunpack, hkey, -⟩ := exists_unpack hboots
    exact .inl ⟨message, hunpack, congrArg MessageKey.time hkey⟩
  · rw [unpack]
    by_cases hremote : m.monotonicRemoteTime.isSome = true
    · cases hboot : bootCounts (parts.sourceNodeIndex m.channelIndex) with
      | none =>
        rw [if_pos hremote]
        exact .inr ⟨rfl, hboots⟩
      | some boot =>
        rw [if_pos hremote]
        exact .inl ⟨_, rfl, rfl⟩
    · rw [if_neg hremote]
      exact .inl ⟨_, rfl, rfl⟩

omit h in
theorem Filled.cons {m : UnpackedMessageHeader}
    {message : Message} (hread : s.partsMessageReader.readMessage = .ok (some m, r))
    (htook : s.partsMessageReader.Took m r) (htime : message.timestamp.time = m.monotonicSentTime)
    (h : Filled parts duration stream (read ++ [⟨m.monotonicSentTime, r.newestTimestamp⟩]) new (s.queue message r) s') :
    Filled parts duration stream read (⟨m.monotonicSentTime, r.newestTimestamp⟩ :: new) s s' where
  __ := h
  tracks := by
    have htracks := h.tracks
    rwa [append_assoc] at htracks
  came a ha := by
    rcases h.came a ha with hqueued | ⟨x, hx, heq⟩
    · rcases eq_or_mem_of_mem_insert hqueued with rfl | hmem
      · exact .inr ⟨_, mem_cons_self, htime.symm⟩
      · exact .inl hmem
    · exact .inr ⟨x, mem_cons_of_mem _ hx, heq⟩
  stayed a ha := by
    obtain ⟨a1, ha1, heq1⟩ := exists_mem_insert (.inr ⟨a, ha, rfl⟩)
    obtain ⟨a2, ha2, heq2⟩ := h.stayed a1 ha1
    exact ⟨a2, ha2, heq2.trans heq1⟩
  arrived x hx := by
    rcases mem_cons.mp hx with rfl | hx
    · obtain ⟨a1, ha1, heq1⟩ := exists_mem_insert (.inl htime)
      obtain ⟨a2, ha2, heq2⟩ := h.stayed a1 ha1
      exact ⟨a2, ha2, heq2.trans heq1⟩
    · exact h.arrived x hx
  toEmit_le := by
    have hle := h.toEmit_le
    have hinsert := length_insert_le key message s.messages
    have hlength : s.partsMessageReader.reads.length = r.reads.length + 1 := by rw [htook.reads_eq, length_cons]
    have hqueue : (s.queue message r).toEmit = (insert key message s.messages).length + r.reads.length := rfl
    rw [toEmit, toEmit] at *
    omega
  reader huntil hpasses hboots := by
    exact h.reader huntil (hpasses.next hread) (htook.boots hboots).1

theorem Tracks.queueUntilSorted :
    (∃ e, s.queueUntilSorted = .error e ∧ e ≠ .backwards ∧
      ¬ (s.partsMessageReader.Passes ∧ s.partsMessageReader.Boots parts)) ∨
    ∃ s' new, s.queueUntilSorted = .ok s' ∧ Filled parts duration stream read new s s' := by
  induction hn : s.partsMessageReader.reads.length using Nat.strong_induction_on generalizing s read with
  | _ n ih =>
  rw [queueUntilSorted_eq]
  by_cases hsorted : s.FrontIsSorted
  · rw [if_pos hsorted]
    exact .inr ⟨s, [], rfl, h.filled (.inl hsorted)⟩
  rw [if_neg hsorted]
  rcases s.partsMessageReader.readMessage_cases with ⟨hreads, r, hread, hreads', huniform⟩ | ⟨m, r, hread, htook⟩ |
    herror
  · have hended := h.ended hreads hreads' (huniform h.uniform)
    have hfilled := hended.filled (.inr rfl)
    rw [hread]
    refine .inr ⟨_, [], rfl, ?_⟩
    exact { hfilled with
      toEmit_le := by rw [toEmit, toEmit, hreads, hreads']
      reader := fun huntil => absurd rfl huntil }
  · rw [hread, h.parts_eq]
    simp only [bind, Except.bind]
    rcases unpack_cases parts r.messageReader.bootCounts m with ⟨message, hunpack, htime⟩ | ⟨hunpack, hunknown⟩
    · rw [hunpack]
      have hlt : r.reads.length < n := by rw [← hn, htook.reads_eq]; exact Nat.lt_succ_self _
      rcases ih _ hlt (h.queue hsorted htook htime) rfl with ⟨e, he, hne, hnot⟩ | ⟨s', new, hloop, hfilled⟩
      · exact .inl ⟨e, he, hne, fun ⟨hpasses, hboots⟩ => hnot ⟨hpasses.next hread, (htook.boots hboots).1⟩⟩
      · exact .inr ⟨s', _, hloop, hfilled.cons hread htook htime⟩
    · rw [hunpack]
      exact .inl ⟨_, rfl, by decide, fun ⟨_, hknown⟩ => hunknown (htook.boots hknown).2⟩
  · rw [herror]
    refine .inl ⟨_, rfl, by decide, fun ⟨hpasses, _⟩ => ?_⟩
    obtain ⟨r', hr'⟩ := hpasses 1
    simp [PartsMessageReader.readMessages, herror, bind, Except.bind] at hr'

theorem Tracks.fill :
    (∃ e, s.fill = .error e ∧ e ≠ .backwards ∧ s.sortedUntil ≠ maxTime ∧
      ¬ (s.partsMessageReader.Passes ∧ s.partsMessageReader.Boots parts)) ∨
    ∃ s' new, s.fill = .ok s' ∧ Filled parts duration stream read new s s' ∧
      (s.sortedUntil = maxTime → s' = s ∧ new = []) := by
  rw [LogPartsSorter.fill]
  by_cases huntil : s.sortedUntil = maxTime
  · rw [if_neg (not_not.mpr huntil)]
    exact .inr ⟨s, [], rfl, h.filled (.inr huntil), fun _ => ⟨rfl, rfl⟩⟩
  · rw [if_pos huntil]
    rcases h.queueUntilSorted with ⟨e, he, hne, hnot⟩ | ⟨s', new, hloop, hfilled⟩
    · exact .inl ⟨e, he, hne, huntil, hnot⟩
    · exact .inr ⟨s', new, hloop, hfilled, fun heq => absurd heq huntil⟩

omit h in
theorem Ready.eq_maxTime (h : s.Ready) (hmessages : s.messages = []) : s.sortedUntil = maxTime := by
  apply h.resolve_left
  intro hsorted
  simp [FrontIsSorted, hmessages] at hsorted

theorem Tracks.emit (hmessages : s.messages = m :: rest) (hle : s.lastMessageTime ≤ m.timestamp.time) :
    Tracks parts duration stream read (s.setLast m.timestamp.time).popFront := by
  have htail : (s.setLast m.timestamp.time).popFront.messages = rest := by
    rw [popFront, setLast, hmessages, tail_cons]
  have hordered := h.ordered
  rw [hmessages] at hordered
  exact { h with
    ordered := htail ▸ (pairwise_cons.mp hordered).2
    came := fun a ha => h.came a (mem_of_mem_tail ha)
    kept := by
      intro x hx
      rw [htail]
      rcases h.kept x hx with ⟨a, ha, heq⟩ | hlast
      · rw [hmessages] at ha
        rcases mem_cons.mp ha with rfl | ha
        · exact .inr heq.ge
        · exact .inl ⟨a, ha, heq⟩
      · exact .inr (hlast.trans hle)
    letGo := fun before x heq t hletGo => (h.letGo before x heq t hletGo).trans hle }

def Gone (parts : LogParts) (duration : Nat) (read : List Read) (s : LogPartsSorter) : Prop :=
  s.lastMessageTime = minTime ∨ LetGo parts.monotonicStartTime duration read s.lastMessageTime

theorem Tracks.gone (hready : s.Ready) (hmessages : s.messages = m :: rest) (huntil : s.sortedUntil ≠ maxTime) :
    Gone parts duration read (s.setLast m.timestamp.time).popFront := by
  right
  obtain ⟨⟨m', hm', hlt⟩, hstart⟩ := hready.resolve_right huntil
  obtain rfl : m = m' := by simpa [hmessages] using hm'
  have hmin := m.isTime.1
  rcases h.sortedUntil with ⟨-, hnone⟩ | ⟨before, x, rfl, heq⟩ | ⟨hmax, -⟩
  · omega
  · rw [h.parts_eq] at hstart
    rw [heq, sortedTo] at hlt hstart
    split at hlt
    · obtain ⟨a, ha, htime⟩ := h.came m (by simp [hmessages])
      exact letGo_concat.mpr (.inr ⟨by omega, a, ha, htime, hlt⟩)
    · omega
  · exact absurd hmax huntil

end

theorem Filled.last_le (hovertaken : ¬ Overtaken parts.monotonicStartTime duration stream)
    (hgone : s.sortedUntil ≠ maxTime → Gone parts duration read s)
    (hlast : ∀ m ∈ s.messages, s.lastMessageTime ≤ m.timestamp.time)
    (h : Filled parts duration stream read new s s') (hnew : s.sortedUntil = maxTime → new = []) :
    ∀ m ∈ s'.messages, s'.lastMessageTime ≤ m.timestamp.time := by
  intro m hm
  rw [h.last_eq]
  rcases h.came m hm with hold | ⟨x, hx, htime⟩
  · exact hlast m hold
  · have huntil : s.sortedUntil ≠ maxTime := fun heq => by
      rw [hnew heq] at hx
      cases hx
    rcases hgone huntil with hmin | hletGo
    · rw [hmin]
      exact m.isTime.1
    · by_contra hlt
      obtain ⟨before, after, rfl⟩ := append_of_mem hx
      refine hovertaken ⟨read ++ before, x, after ++ s'.partsMessageReader.reads, ?_, s.lastMessageTime,
        hletGo.append before, by omega⟩
      rw [h.tracks.stream_eq]
      simp

theorem Tracks.rounds_ne (hovertaken : ¬ Overtaken parts.monotonicStartTime duration stream) (n : Nat)
    (h : Tracks parts duration stream read s) (hgone : s.sortedUntil ≠ maxTime → Gone parts duration read s)
    (hlast : ∀ m ∈ s.messages, s.lastMessageTime ≤ m.timestamp.time) : source.rounds n s ≠ .error .backwards := by
  induction n generalizing s read with
  | zero => simp [Pull.rounds, pure, Except.pure]
  | succ n ih =>
    rcases h.fill with ⟨e, hfill, hne, -⟩ | ⟨s', new, hfill, hfilled, hnew⟩
    · have hfront : source.front s = .error e := by
        show s.front = .error e
        simp only [front, hfill, bind, Except.bind]
      rw [Pull.rounds_of_front_error hfront]
      simpa using hne
    · have hlast' := hfilled.last_le hovertaken hgone hlast fun huntil => (hnew huntil).2
      cases hmessages : s'.messages with
      | nil => simp [ended_of_messages_nil hfill hfilled.ready hmessages (n + 1)]
      | cons m rest =>
        have hle := hlast' m (by simp [hmessages])
        have hemit := ih (hfilled.tracks.emit hmessages hle)
          (hfilled.tracks.gone hfilled.ready hmessages) fun a ha => ?_
        · rw [Pull.rounds_of_front_some (front_of_messages_cons hfill hmessages hle) rfl]
          cases hrest : source.rounds n (s'.setLast m.timestamp.time).popFront with
          | error e => simpa [Except.map, hrest] using hemit
          | ok l => simp [Except.map]
        · exact head_le (hmessages ▸ hfilled.tracks.ordered)
            (by rw [← hmessages]; exact mem_of_mem_tail ha)

theorem front_of_backwards (hfill : s.fill = .ok s')
    (hmessages : s'.messages = m :: rest) (hlast : m.timestamp.time < s'.lastMessageTime) :
    source.front s = .error .backwards := by
  show s.front = .error .backwards
  simp only [front, hfill, bind, Except.bind, hmessages, ge_iff_le, if_neg (not_le.mpr hlast)]
  rfl

theorem Filled.exists_lt_last
    (hread : ¬ Overtaken parts.monotonicStartTime duration read) (h : Filled parts duration stream read new s s')
    (hovertaken : Overtaken parts.monotonicStartTime duration (read ++ new)) :
    ∃ m ∈ s'.messages, m.timestamp.time < s'.lastMessageTime := by
  obtain ⟨before, x, after, heq, t, hletGo, hlt⟩ := hovertaken
  have hnew : x ∈ new := by
    rcases append_eq_append_iff.mp heq with ⟨more, hbefore, hnew⟩ | ⟨more, hmore, hnew⟩
    · rw [hnew]
      simp
    · cases more with
      | nil =>
        rw [← nil_append new, ← hnew]
        simp
      | cons y more =>
        obtain ⟨rfl, -⟩ := cons.inj hnew
        exact absurd ⟨before, x, more, hmore, t, hletGo, hlt⟩ hread
  have hle : t ≤ s'.lastMessageTime := by
    rcases eq_nil_or_concat after with rfl | ⟨after, y, rfl⟩
    · exact h.tracks.letGo before x heq t hletGo
    · refine h.tracks.letGo (before ++ x :: after) y ?_ t (hletGo.append _)
      rw [heq]
      simp
  obtain ⟨m, hm, htime⟩ := h.arrived x hnew
  exact ⟨m, hm, by omega⟩

section

variable (hstop : ∀ x ∈ stream, x.newest - duration ≠ maxTime) (h : Tracks parts duration stream read s)

include hstop h

theorem Tracks.reads_eq_nil (huntil : s.sortedUntil = maxTime) : s.partsMessageReader.reads = [] := by
  rcases h.sortedUntil with ⟨-, hmin⟩ | ⟨before, x, rfl, heq⟩ | ⟨-, hend⟩
  · exact absurd (hmin.symm.trans huntil) (by decide)
  · have hx := hstop x (by rw [h.stream_eq]; simp)
    rw [heq, sortedTo] at huntil
    split at huntil
    · exact absurd huntil hx
    · exact absurd huntil (by decide)
  · exact hend

/-- In a stream with an overtaken message that passes the reader, the check of the sorter fails. -/
theorem Tracks.rounds_eq (hread : ¬ Overtaken parts.monotonicStartTime duration read)
    (hreader : s.sortedUntil ≠ maxTime → s.partsMessageReader.Passes ∧ s.partsMessageReader.Boots parts)
    (hovertaken : Overtaken parts.monotonicStartTime duration stream) :
    ∃ n, source.rounds n s = .error .backwards := by
  induction hn : s.toEmit using Nat.strong_induction_on generalizing s read with
  | _ n ih =>
  rcases h.fill with ⟨e, -, -, huntil, hnot⟩ | ⟨s', new, hfill, hfilled, hsame⟩
  · exact absurd (hreader huntil) hnot
  have hfails : ∀ m ∈ s'.messages, m.timestamp.time < s'.lastMessageTime → ∃ n, source.rounds n s = .error .backwards := by
    intro m hm hlt
    obtain ⟨m0, rest, hmessages⟩ := exists_cons_of_ne_nil (ne_nil_of_mem hm)
    have hle := head_le (hmessages ▸ hfilled.tracks.ordered) (hmessages ▸ hm)
    exact ⟨1, Pull.rounds_of_front_error (front_of_backwards hfill hmessages (by omega)) 0⟩
  by_cases hnew : Overtaken parts.monotonicStartTime duration (read ++ new)
  · obtain ⟨m, hm, hlt⟩ := hfilled.exists_lt_last hread hnew
    exact hfails m hm hlt
  cases hmessages : s'.messages with
  | nil =>
    have hend := hfilled.tracks.reads_eq_nil hstop (hfilled.ready.eq_maxTime hmessages)
    rw [hfilled.tracks.stream_eq, hend, append_nil] at hovertaken
    exact absurd hovertaken hnew
  | cons m rest =>
    by_cases hle : s'.lastMessageTime ≤ m.timestamp.time
    · have hshrinks : (s'.setLast m.timestamp.time).popFront.toEmit < n := by
        have htail : (s'.setLast m.timestamp.time).popFront.messages = rest := by
          rw [popFront, setLast, hmessages, tail_cons]
        have hpop : (s'.setLast m.timestamp.time).popFront.toEmit = rest.length + s'.partsMessageReader.reads.length := by
          rw [toEmit, htail]
          rfl
        have hto := hfilled.toEmit_le
        rw [hn, toEmit, hmessages, length_cons] at hto
        omega
      have hreader' : s'.sortedUntil ≠ maxTime →
          s'.partsMessageReader.Passes ∧ s'.partsMessageReader.Boots parts := by
        intro huntil
        by_cases hmax : s.sortedUntil = maxTime
        · exact absurd ((hsame hmax).1 ▸ hmax) huntil
        · exact hfilled.reader huntil (hreader hmax).1 (hreader hmax).2
      obtain ⟨k, hk⟩ := ih _ hshrinks (hfilled.tracks.emit hmessages hle) hnew hreader' rfl
      refine ⟨k + 1, ?_⟩
      rw [Pull.rounds_of_front_some (front_of_messages_cons hfill hmessages hle) rfl, hk]
      rfl
    · exact hfails m (by simp [hmessages]) (not_le.mp hle)

end

theorem readsAfter_newest {newest : Int} {l : List UnpackedMessageHeader} {x : Read} (hx : x ∈ readsAfter newest l) :
    x.newest = newest ∨ ∃ m ∈ l, m.monotonicSentTime = x.newest := by
  induction l generalizing newest with
  | nil => cases hx
  | cons m rest ih =>
    have hmax : max newest m.monotonicSentTime = newest ∨ ∃ a ∈ m :: rest, a.monotonicSentTime = max newest m.monotonicSentTime :=
      (max_choice newest m.monotonicSentTime).imp id fun heq => ⟨m, mem_cons_self, heq.symm⟩
    rcases mem_cons.mp hx with rfl | hx
    · exact hmax
    · rcases ih hx with heq | ⟨a, ha, heq⟩
      · rw [heq]
        exact hmax
      · exact .inr ⟨a, mem_cons_of_mem m ha, heq⟩

theorem newest_ne_maxTime {files : List LogFile}
    (hmax : duration = 0 → ∀ m ∈ files.flatMap LogFile.messages, m.monotonicSentTime ≠ maxTime) :
    ∀ x ∈ readsOf files, x.newest - duration ≠ maxTime := by
  intro x hx
  obtain ⟨f, hf, hx⟩ := mem_flatMap.mp hx
  rcases readsAfter_newest hx with heq | ⟨m, hm, heq⟩
  · rw [heq, minTime, maxTime]
    omega
  · have hle := m.isTime.2
    have hne : duration = 0 → m.monotonicSentTime ≠ maxTime := fun hzero =>
      hmax hzero m (mem_flatMap.mpr ⟨f, hf, hm⟩)
    omega

theorem tracks_ofParts {first : LogFile} {rest : List LogFile}
    (hduration : ∀ f ∈ first :: rest, f.maxOutOfOrderDuration = duration) :
    Tracks parts duration (readsOf (first :: rest)) [] (ofParts parts first rest) where
  parts_eq := rfl
  uniform := ⟨rfl, hduration first mem_cons_self, fun f hf => hduration f (mem_cons_of_mem first hf)⟩
  stream_eq := by simp [ofParts, PartsMessageReader.reads, readsOf, ofFile]
  sortedUntil := .inl ⟨rfl, rfl⟩
  ordered := List.Pairwise.nil
  came := by simp [ofParts]
  kept := by simp
  letGo before x heq := by simp at heq

def Protected (parts : LogParts) (first : LogFile) (rest : List LogFile) : Prop :=
  (ofParts parts first rest).partsMessageReader.Passes →
    ∀ n, source.rounds n (ofParts parts first rest) ≠ .error .backwards

/-- The check of the reader protects the sorter if, in files that pass it, no message comes after a newer one was let go; and
only then where the sorter reads all messages and knows the boots of their senders. -/
theorem order_check_protects_iff (parts : LogParts) (first : LogFile) (rest : List LogFile) (duration : Nat)
    (hduration : ∀ f ∈ first :: rest, f.maxOutOfOrderDuration = duration) :
    (((ofParts parts first rest).partsMessageReader.Passes →
        ¬ Overtaken parts.monotonicStartTime duration (readsOf (first :: rest))) → Protected parts first rest) ∧
      ((∀ f ∈ first :: rest, BootsKnown parts f.bootCounts f.messages) →
        (duration = 0 → ∀ m ∈ (first :: rest).flatMap LogFile.messages, m.monotonicSentTime ≠ maxTime) →
        (Protected parts first rest ↔ ((ofParts parts first rest).partsMessageReader.Passes →
          ¬ Overtaken parts.monotonicStartTime duration (readsOf (first :: rest))))) := by
  have htracks : Tracks parts duration (readsOf (first :: rest)) [] (ofParts parts first rest) := tracks_ofParts hduration
  have hprotects : ((ofParts parts first rest).partsMessageReader.Passes →
      ¬ Overtaken parts.monotonicStartTime duration (readsOf (first :: rest))) → Protected parts first rest :=
    fun hovertaken hpasses n => htracks.rounds_ne (hovertaken hpasses) n (fun _ => .inl rfl) (by simp [ofParts])
  refine ⟨hprotects, fun hboots hmax => ⟨fun hprotected hpasses hovertaken => ?_, hprotects⟩⟩
  have hreader : (ofParts parts first rest).partsMessageReader.Boots parts :=
    ⟨hboots first mem_cons_self, fun f hf => hboots f (mem_cons_of_mem first hf)⟩
  obtain ⟨n, hn⟩ := htracks.rounds_eq (newest_ne_maxTime hmax) not_overtaken_nil (fun _ => ⟨hpasses, hreader⟩) hovertaken
  exact hprotected hpasses n hn

def fileOf (times : List { t // IsTime t }) : LogFile where
  maxOutOfOrderDuration := 10
  messages := times.map fun t => { channelIndex := 0, monotonicSentTime := t.1, queueIndex := 0, isTime := t.2 }

/-- The second file starts with a message that is older, but not by more than the tolerance. -/
theorem order_check_protects_two_files : Protected { monotonicStartTime := 0, bootCount := 0 }
    (fileOf [⟨100, by decide⟩, ⟨120, by decide⟩]) [fileOf [⟨115, by decide⟩]] := by
  refine (order_check_protects_iff _ _ _ 10 (by decide)).1 fun _ hovertaken => ?_
  have hreads : readsOf [fileOf [⟨100, by decide⟩, ⟨120, by decide⟩], fileOf [⟨115, by decide⟩]] =
    (([] ++ [⟨100, 100⟩]) ++ [⟨120, 120⟩]) ++ [⟨115, 115⟩] := by decide
  rw [hreads] at hovertaken
  simp only [overtaken_concat, letGo_concat, not_overtaken_nil, not_letGo_nil, false_or, mem_append,
    not_mem_nil, mem_singleton] at hovertaken
  rcases hovertaken with ⟨t, ⟨-, a, rfl, rfl, hlt⟩, -⟩ | ⟨t, ⟨-, a, rfl, rfl, hlt⟩ | ⟨-, a, rfl | rfl, rfl, hlt⟩, hgt⟩
  all_goals simp at *

/-- After a file whose newest message is from 200, one from 50 in the next file is not noticed. Nor is one from before the
start when the newest is from exactly 10 after it. -/
theorem order_check_misses :
    ¬ Protected { monotonicStartTime := 0, bootCount := 0 } (fileOf [⟨100, by decide⟩, ⟨200, by decide⟩])
        [fileOf [⟨50, by decide⟩]] ∧
      ¬ Protected { monotonicStartTime := 0, bootCount := 0 }
        (fileOf [⟨-5, by decide⟩, ⟨10, by decide⟩, ⟨-20, by decide⟩]) [] := by
  have hpasses : ∀ {r : PartsMessageReader} (n : Nat), (∃ r', r.readMessages n = .ok r' ∧ r'.done = true) → r.Passes :=
    fun n ⟨_, hread, hdone⟩ => .of_readMessages hread (.of_done hdone)
  refine ⟨fun h => h (hpasses 4 (by decide +kernel)) 2 (by decide +kernel),
    fun h => h (hpasses 4 (by decide +kernel)) 2 (by decide +kernel)⟩

end LogPartsSorter

end RobotCode.Logging
