import RobotCode.Lib.Transition

/-!
# A decoder with a thread of its own

`ThreadedLzmaDecoder` decodes ahead on a second thread, into a queue that `Read` copies from. A step is what
one of the threads does while it holds `decode_mutex_`, or the decoding in between. A thread that waits on
its condition variable can be woken at any time, and then looks at what it waits for again.
-/

namespace RobotCode.Logging.ThreadedLzmaDecoder

open Transition

/-- `kQueueSize` -/
def queueSize : Nat := 8

/-- `kBufSize` -/
def bufSize : Nat := 256 * 1024

/-- Where the decode thread is. It has the lock next in `woken` and in `push`, where it holds what it decoded. -/
inductive DecodeThread
  | blocked
  | woken
  | decode
  | push (buffer : List UInt8)
  | done
  deriving DecidableEq

/-- The reading thread, between calls of `Read` or in the wait of one for some number of bytes. -/
inductive Reader
  | idle
  | blocked (bytesRequested : Nat)
  | woken (bytesRequested : Nat)
  deriving DecidableEq

structure State where
  /-- What the underlying `LzmaDecoder` has still to decode. -/
  remaining : List UInt8
  decodedQueue : List (List UInt8) := []
  finished : Bool := false
  decodeThread : DecodeThread := .woken
  reader : Reader := .idle
  /-- What the calls of `Read` returned. -/
  returned : List (List UInt8) := []
  /-- A `CHECK` failed. -/
  aborted : Bool := false

namespace State

/-- `continue_decoding_.notify_one()` -/
def notifyDecodeThread (s : State) : State :=
  if s.decodeThread = .blocked then { s with decodeThread := .woken } else s

/-- `queue_filled_.notify_one()` -/
def notifyReader (s : State) : State :=
  match s.reader with
  | .blocked n => { s with reader := .woken n }
  | _ => s

def startDecoding (s : State) : State :=
  if s.finished then { s with aborted := true } else { s with decodeThread := .decode }

/-- `continue_decoding_.wait` of the decode thread, once it has the lock. -/
def waitToDecode (s : State) : State :=
  if s.decodedQueue.length < queueSize || s.finished then
    if s.finished then { s with decodeThread := .done } else s.startDecoding
  else { s with decodeThread := .blocked }

def enqueue (s : State) (buffer : List UInt8) : State :=
  if buffer.length > 0 then { s with decodedQueue := s.decodedQueue ++ [buffer] } else { s with finished := true }

def pushBuffer (s : State) (buffer : List UInt8) : State :=
  let s := s.enqueue buffer
  if queueSize ≤ s.decodedQueue.length || s.finished then s.notifyReader.waitToDecode else s.startDecoding

/-- The end of `Read`, which copies from the front of the queue. -/
def copyFront (s : State) (bytesRequested : Nat) : State :=
  match s.decodedQueue with
  | [] => { s with aborted := true }
  | front :: rest =>
    let bytesToCopy := min bytesRequested front.length
    let s := { s with
      decodedQueue := front.drop bytesToCopy :: rest
      returned := s.returned ++ [front.take bytesToCopy]
      reader := .idle }
    if !s.finished && s.decodedQueue.length < queueSize then s.notifyDecodeThread else s

/-- `queue_filled_.wait` of `Read`, once it has the lock, and what follows. -/
def waitToRead (s : State) (bytesRequested : Nat) : State :=
  if s.finished || !s.decodedQueue.isEmpty then
    if s.finished && s.decodedQueue.isEmpty then { s with returned := s.returned ++ [[]], reader := .idle }
    else s.copyFront bytesRequested
  else { s with reader := .blocked bytesRequested }

/-- `ThreadedLzmaDecoder::Read`, up to where it waits or returns. -/
def read (s : State) (bytesRequested : Nat) : State :=
  let s := { s with decodedQueue := s.decodedQueue.filter fun buffer => !buffer.isEmpty }
  if s.decodedQueue.isEmpty then s.notifyDecodeThread.waitToRead bytesRequested else s.copyFront bytesRequested

end State

/-- Who moves: a thread, or a wakeup without a reason. -/
inductive Label
  | decodeThread
  | read (bytesRequested : Nat)
  | reader
  | wakeDecodeThread
  | wakeReader

def step (s : State) : Label → Option State
  | .decodeThread =>
    match s.decodeThread with
    | .woken => some s.waitToDecode
    | .decode =>
      some { s with decodeThread := .push (s.remaining.take bufSize), remaining := s.remaining.drop bufSize }
    | .push buffer => some (s.pushBuffer buffer)
    | .blocked | .done => none
  | .read bytesRequested => if s.reader = .idle then some (s.read bytesRequested) else none
  | .reader =>
    match s.reader with
    | .woken bytesRequested => some (s.waitToRead bytesRequested)
    | _ => none
  | .wakeDecodeThread => if s.decodeThread = .blocked then some s.notifyDecodeThread else none
  | .wakeReader =>
    match s.reader with
    | .blocked _ => some s.notifyReader
    | _ => none

/-- A buffer that `Read` is called with has room for a byte. -/
def Allowed : State → Label → Prop
  | _, .read bytesRequested => 1 ≤ bytesRequested
  | _, _ => True

instance (s : State) (label : Label) : Decidable (Allowed s label) := by
  cases label <;> unfold Allowed <;> infer_instance

/-! ### What holds between steps -/

/-- The bytes that were decoded and are not in the queue yet. -/
def DecodeThread.decoded : DecodeThread → List UInt8
  | .push buffer => buffer
  | _ => []

/-- Every byte is returned, queued, in the hands of the decode thread or not decoded yet. -/
structure Sound (stream decoded : List UInt8) (s : State) : Prop where
  bytes : s.returned.flatten ++ (s.decodedQueue.flatten ++ (decoded ++ s.remaining)) = stream
  drained : s.finished = true → decoded ++ s.remaining = []
  ended : ∀ before after, s.returned = before ++ [] :: after → before.flatten = stream
  stripped : ∀ n, s.reader = .blocked n ∨ s.reader = .woken n → 1 ≤ n ∧ [] ∉ s.decodedQueue
  running : s.aborted = false

structure Consistent (stream : List UInt8) (s : State) : Prop where
  sound : Sound stream s.decodeThread.decoded s
  finished : s.finished = true ↔ s.decodeThread = .done
  exhausted : s.decodeThread = .push [] → s.remaining = []

/-- The decode thread waits only for room, and the reader only while the decode thread goes on. -/
structure Invariant (stream : List UInt8) (s : State) : Prop extends Consistent stream s where
  full : s.decodeThread = .blocked → queueSize ≤ s.decodedQueue.length
  waiting : ∀ n, s.reader = .blocked n → s.finished = false ∧ s.decodedQueue.length < queueSize

variable {stream decoded : List UInt8} {s : State} {n : Nat}

theorem Invariant.initial (stream : List UInt8) : Invariant stream { remaining := stream } := by
  refine ⟨⟨⟨rfl, nofun, fun before after h => ?_, ?_, rfl⟩, ?_, nofun⟩, nofun, nofun⟩
  · cases before <;> cases h
  all_goals grind

open DecodeThread

theorem Sound.waitToDecode (h : Sound stream [] s)
    (hroom : ∀ n, s.reader = .blocked n → s.finished = false ∧ s.decodedQueue.length < queueSize) :
    Invariant stream s.waitToDecode := by
  obtain ⟨hbytes, hdrained, hended, hstripped, hrunning⟩ := h
  refine ⟨⟨⟨?_, ?_, ?_, ?_, ?_⟩, ?_, ?_⟩, ?_, ?_⟩ <;>
    grind [State.waitToDecode, State.startDecoding, decoded]

theorem Sound.enqueue {buffer : List UInt8} (h : Sound stream buffer s) (hf : s.finished = false)
    (hexhausted : buffer = [] → s.remaining = []) : Sound stream [] (s.enqueue buffer) := by
  obtain ⟨hbytes, hdrained, hended, hstripped, hrunning⟩ := h
  unfold State.enqueue
  split
  · exact ⟨by simpa using hbytes, by simp [hf], hended, by grind, hrunning⟩
  · obtain rfl : buffer = [] := by grind
    exact ⟨hbytes, fun _ => hexhausted rfl, hended, hstripped, hrunning⟩

theorem Invariant.pushBuffer {buffer : List UInt8} (h : Invariant stream s) (hd : s.decodeThread = .push buffer) :
    Invariant stream (s.pushBuffer buffer) := by
  have hs : Sound stream buffer s := by simpa only [hd, decoded] using h.sound
  obtain ⟨hbytes, hdrained, hended, hstripped, hrunning⟩ := hs.enqueue (by grind [h.finished]) (by grind [h.exhausted])
  unfold State.pushBuffer
  dsimp only
  split
  · apply Sound.waitToDecode
    · constructor <;> grind [State.notifyReader]
    · grind [State.notifyReader]
  · refine ⟨⟨⟨?_, ?_, ?_, ?_, ?_⟩, ?_, ?_⟩, ?_, ?_⟩ <;> grind [State.startDecoding, decoded]

theorem Sound.returns (h : Sound stream decoded s) {queue : List (List UInt8)} {bytes : List UInt8}
    (hbytes : bytes ++ queue.flatten = s.decodedQueue.flatten) (hnil : bytes = [] → s.returned.flatten = stream) :
    Sound stream decoded { s with decodedQueue := queue, returned := s.returned ++ [bytes], reader := .idle } := by
  refine ⟨?_, h.drained, ?_, by grind, h.running⟩
  · rw [← h.bytes, ← hbytes]
    simp
  · intro before after hsplit
    obtain rfl | ⟨init, last, rfl⟩ := after.eq_nil_or_concat
    · obtain ⟨hbefore, hlast⟩ := List.append_inj' hsplit rfl
      exact hbefore ▸ hnil (List.singleton_inj.mp hlast)
    · have hinit : s.returned ++ [bytes] = (before ++ [] :: init) ++ [last] := by simpa using hsplit
      exact h.ended before init (List.append_inj' hinit rfl).1

theorem Consistent.notifyDecodeThread (h : Consistent stream s) : Consistent stream s.notifyDecodeThread ∧
    s.notifyDecodeThread.decodeThread ≠ .blocked := by
  obtain ⟨⟨hbytes, hdrained, hended, hstripped, hrunning⟩, hfinished, hexhausted⟩ := h
  refine ⟨⟨⟨?_, ?_, ?_, ?_, ?_⟩, ?_, ?_⟩, ?_⟩ <;> grind [State.notifyDecodeThread, decoded]

theorem Consistent.copyFront (h : Consistent stream s) (hn : 1 ≤ n) (hq : s.decodedQueue ≠ [])
    (hstripped : [] ∉ s.decodedQueue) : Invariant stream (s.copyFront n) := by
  obtain ⟨front, rest, hqueue⟩ := List.exists_cons_of_ne_nil hq
  have hread : Consistent stream { s with
      decodedQueue := front.drop (min n front.length) :: rest
      returned := s.returned ++ [front.take (min n front.length)]
      reader := .idle } := by
    refine ⟨h.sound.returns (by simp [hqueue, ← List.append_assoc]) fun hnil => ?_, h.finished, h.exhausted⟩
    rw [List.take_eq_nil_iff] at hnil
    grind
  unfold State.copyFront
  rw [hqueue]
  dsimp only
  split
  · obtain ⟨hconsistent, hblocked⟩ := hread.notifyDecodeThread
    exact ⟨hconsistent, fun hb => absurd hb hblocked, by grind [State.notifyDecodeThread]⟩
  · exact ⟨hread, by grind [h.finished], nofun⟩

theorem Consistent.waitToRead (h : Consistent stream s) (hn : 1 ≤ n) (hstripped : [] ∉ s.decodedQueue)
    (hfull : s.decodeThread = .blocked → queueSize ≤ s.decodedQueue.length) : Invariant stream (s.waitToRead n) := by
  unfold State.waitToRead
  split
  · split
    · have hdrained := h.sound.drained
      refine ⟨⟨h.sound.returns (by simp) fun _ => ?_, h.finished, h.exhausted⟩, hfull, nofun⟩
      rw [← h.sound.bytes]
      grind
    · exact h.copyFront hn (by grind) hstripped
  · have hs := h.sound
    exact ⟨⟨⟨hs.bytes, hs.drained, hs.ended, by grind, hs.running⟩, h.finished, h.exhausted⟩, hfull,
      by grind [queueSize]⟩

theorem Invariant.read (h : Invariant stream s) (hn : 1 ≤ n) (hr : s.reader = .idle) :
    Invariant stream (s.read n) := by
  have hs := h.sound
  have hstripped : [] ∉ s.decodedQueue.filter fun buffer => !buffer.isEmpty := by simp
  have hstrip : Consistent stream
      { s with decodedQueue := s.decodedQueue.filter fun buffer => !buffer.isEmpty } := by
    refine ⟨⟨?_, hs.drained, hs.ended, by grind, hs.running⟩, h.finished, h.exhausted⟩
    simpa only [List.flatten_filter_not_isEmpty] using hs.bytes
  unfold State.read
  dsimp only
  split
  · obtain ⟨hconsistent, hblocked⟩ := hstrip.notifyDecodeThread
    exact hconsistent.waitToRead hn (by grind [State.notifyDecodeThread]) fun hb => absurd hb hblocked
  · exact hstrip.copyFront hn (by grind) hstripped

theorem Invariant.step {label : Label} {s' : State} (h : Invariant stream s) (hok : Allowed s label)
    (hstep : step s label = some s') : Invariant stream s' := by
  have hs := h.sound
  cases label with
  | decodeThread =>
    simp only [ThreadedLzmaDecoder.step] at hstep
    split at hstep
    · rename_i hd
      cases hstep
      rw [hd] at hs
      exact hs.waitToDecode h.waiting
    · rename_i hd
      cases hstep
      rw [hd] at hs
      refine ⟨⟨⟨?_, by grind [h.finished], hs.ended, hs.stripped, hs.running⟩, by grind [h.finished], ?_⟩, nofun,
        h.waiting⟩
      · simpa [decoded] using hs.bytes
      · intro hnil
        have : s.remaining = [] := by simpa [bufSize] using hnil
        simp [this]
    · rename_i hd
      cases hstep
      exact h.pushBuffer hd
    all_goals cases hstep
  | read n =>
    obtain ⟨hr, rfl⟩ : s.reader = .idle ∧ s.read n = s' := by simpa [ThreadedLzmaDecoder.step] using hstep
    exact h.read hok hr
  | reader =>
    simp only [ThreadedLzmaDecoder.step] at hstep
    split at hstep
    · rename_i n hr
      cases hstep
      obtain ⟨hn, hstripped⟩ := hs.stripped n (.inr hr)
      exact h.waitToRead hn hstripped h.full
    · cases hstep
  | wakeDecodeThread =>
    obtain ⟨hd, rfl⟩ : s.decodeThread = .blocked ∧ s.notifyDecodeThread = s' := by
      simpa [ThreadedLzmaDecoder.step] using hstep
    obtain ⟨hconsistent, hblocked⟩ := h.notifyDecodeThread
    exact ⟨hconsistent, fun hb => absurd hb hblocked, by grind [State.notifyDecodeThread, h.waiting]⟩
  | wakeReader =>
    simp only [ThreadedLzmaDecoder.step] at hstep
    split at hstep
    · rename_i n hr
      cases hstep
      rw [State.notifyReader, hr]
      have hstripped := hs.stripped
      exact ⟨⟨⟨hs.bytes, hs.drained, hs.ended, by grind, hs.running⟩, h.finished, h.exhausted⟩, h.full, nofun⟩
    · cases hstep

/-- However the threads take turns, `Read` returns the decoded stream in order, returns no bytes only at its end, and while it
waits the decode thread can go on. -/
theorem threadedDecoder_reads_stream (stream : List UInt8) (s : State)
    (h : Run step Allowed { remaining := stream } s) : s.returned.flatten <+: stream ∧
      (∀ before after, s.returned = before ++ [] :: after → before.flatten = stream) ∧
      (∀ n, s.reader = .blocked n → ∃ s', step s .decodeThread = some s') ∧ s.aborted = false := by
  have hinv : Invariant stream s :=
    h.invariant (fun u a v hu hok hstep => Invariant.step hu hok hstep) (.initial stream)
  refine ⟨⟨_, hinv.sound.bytes⟩, hinv.sound.ended, fun n hn => ?_, hinv.sound.running⟩
  obtain ⟨hf, hroom⟩ := hinv.waiting n hn
  unfold step
  cases hd : s.decodeThread with
  | blocked => exact absurd (hinv.full hd) (Nat.not_le.mpr hroom)
  | done => simp [hinv.finished.mpr hd] at hf
  | woken | decode | push buffer => exact ⟨_, rfl⟩

/-- `Read` of two bytes waits, then returns them, the third and the end. -/
theorem threadedDecoder_reads_three :
    ∃ s : State, s.returned = [[1, 2], [3], []] ∧ s.returned.flatten <+: [1, 2, 3] := by
  have hread : ∃ s, Run step Allowed { remaining := [1, 2, 3] } s ∧ s.returned = [[1, 2], [3], []] :=
    Run.exists_of_exec [.read 2, .decodeThread, .decodeThread, .decodeThread, .wakeReader, .reader, .read 2, .read 2,
      .decodeThread, .decodeThread, .reader] (by decide +kernel)
  obtain ⟨s, hrun, hs⟩ := hread
  exact ⟨s, hs, (threadedDecoder_reads_stream _ s hrun).1⟩

end RobotCode.Logging.ThreadedLzmaDecoder
