import RobotCode.Lib.LittleEndian
import RobotCode.Logging.BufferWriter

/-!
# Messages from the bytes of a log file

A log file is a sequence of messages, each with its size in front. `SpanReader` gets the bytes in blocks from a
decoder and hands out one message after the other. A message or its size may lie across blocks, so what has not been
handed out yet is moved to the front of the buffer and the next block is put behind it.

When the file ends inside of a size, the reader still takes four bytes at that place. The ones behind the end of the
file are whatever the buffer has there.
-/

namespace RobotCode.Logging

open List

/-- The first `size` bytes of the backing store are in use. -/
structure ResizeableBuffer where
  storage : Bytes
  size : Nat
  size_le : size ≤ storage.length

inductive SpanReaderCheck where
  | eraseFront
  /-- A read outside of the backing store. -/
  | outOfBounds
  /-- The rounds of a loop have run out. -/
  | rounds
deriving DecidableEq, Repr

namespace ResizeableBuffer

def empty : ResizeableBuffer := ⟨[], 0, le_rfl⟩

def capacity (b : ResizeableBuffer) : Nat := b.storage.length

def content (b : ResizeableBuffer) : Bytes := b.storage.take b.size

/-- Grows the backing store when it is too small. What is in the new bytes is not specified; the decoder overwrites them. -/
def resize (newSize : Nat) (b : ResizeableBuffer) : ResizeableBuffer where
  storage := b.storage ++ replicate (newSize - b.capacity) 0
  size := newSize
  size_le := by simp only [capacity, length_append, length_replicate]; omega

/-- Moves the bytes after the first `count` ones to the front. The bytes behind them stay what they were. -/
def eraseFront (count : Nat) (b : ResizeableBuffer) : Except SpanReaderCheck ResizeableBuffer :=
  if count = 0 then .ok b
  else if count ≤ b.size then
    .ok ⟨b.content.drop count ++ b.storage.drop (b.size - count), b.size - count, by
      have := b.size_le
      simp only [content, length_append, length_drop, length_take]; omega⟩
  else .error .eraseFront

def overwrite (start : Nat) (range : Bytes) (b : ResizeableBuffer) : ResizeableBuffer where
  storage := b.storage.take start ++ range ++ b.storage.drop (start + range.length)
  size := b.size
  size_le := by
    have := b.size_le
    simp only [length_append, length_take, length_drop]; omega

/-- `GetPrefixedSize`. It looks at the backing store and not at the size of the buffer. -/
def getPrefixedSize (start : Nat) (b : ResizeableBuffer) : Except SpanReaderCheck Nat :=
  if start + 4 ≤ b.capacity then .ok (LittleEndian.combine ((b.storage.drop start).take 4))
  else .error .outOfBounds

end ResizeableBuffer

/-- What a call of `Read` does: the bytes of the range after the call, how many of them have been read, and the state
of the decoder. -/
structure DataDecoder.Result (State : Type) where
  range : Bytes
  count : Nat
  decoder : State

/-- The interface to the bytes of a file. A call reads the next bytes into the front of the range, fewer than there is room for
only if there are no more. What it leaves in the rest is open. -/
structure DataDecoder where
  State : Type
  read : State → Nat → DataDecoder.Result State
  remaining : State → Bytes
  length_range : ∀ s n, (read s n).range.length = n
  count_le : ∀ s n, (read s n).count ≤ n
  remaining_eq : ∀ s n, 0 < n → remaining s = (read s n).range.take (read s n).count ++ remaining (read s n).decoder
  all_read : ∀ s n, (read s n).count < n → remaining (read s n).decoder = []

/-- `DummyDecoder`: the bytes of the file from the current position on, and whether its end has been reached. -/
structure DummyDecoder where
  file : Bytes
  endOfFile : Bool

/-- `DummyDecoder::Read` for a regular file, from which the system reads less than asked for only at its end. -/
def DummyDecoder.read (d : DummyDecoder) (n : Nat) : DataDecoder.Result DummyDecoder :=
  if d.endOfFile then ⟨replicate n 0, 0, d⟩
  else ⟨d.file.take n ++ replicate (n - d.file.length) 0, min n d.file.length,
    ⟨d.file.drop n, decide (min n d.file.length = 0)⟩⟩

/-- It keeps the promise. -/
def dummyDecoder : DataDecoder where
  State := DummyDecoder
  read := DummyDecoder.read
  remaining d := if d.endOfFile then [] else d.file
  length_range d n := by
    rw [DummyDecoder.read]
    split
    · simp
    · rw [length_append, length_take, length_replicate]
      omega
  count_le d n := by
    rw [DummyDecoder.read]
    split <;> simp
  remaining_eq d n hn := by
    rw [DummyDecoder.read]
    cases hend : d.endOfFile with
    | true => simp [hend]
    | false =>
      by_cases hfile : d.file = []
      · simp [hfile]
      · have hlength : min n d.file.length ≠ 0 := by
          have := length_pos_iff.mpr hfile
          omega
        have htake : (d.file.take n ++ replicate (n - d.file.length) 0).take (min n d.file.length) =
            d.file.take n := by
          rw [take_append_of_le_length (by rw [length_take])]
          simp
        simp [hlength, htake]
  all_read d n := by
    rw [DummyDecoder.read]
    cases hend : d.endOfFile with
    | true => simp [hend]
    | false =>
      simp
      omega

/-- The amount of data grabbed at a time. -/
def kReadSize : Nat := 256 * 1024

structure SpanReader (D : DataDecoder) where
  decoder : D.State
  data : ResizeableBuffer
  consumedData : Nat

namespace SpanReader

variable {D : DataDecoder} (r : SpanReader D)

def make (decoder : D.State) : SpanReader D := ⟨decoder, .empty, 0⟩

/-- `ReadBlock`. Erasing nothing does nothing, so it is not asked first whether there is something to erase. -/
def readBlock : Except SpanReaderCheck (Bool × SpanReader D) := do
  let data ← r.data.eraseFront r.consumedData
  let startingSize := data.size
  let data := data.resize (startingSize + kReadSize)
  let result := D.read r.decoder (data.size - startingSize)
  let data := (data.overwrite startingSize result.range).resize (startingSize + result.count)
  .ok (decide (result.count ≠ 0), ⟨result.decoder, data, 0⟩)

def ensureSize : Except SpanReaderCheck (Bool × SpanReader D) :=
  if r.data.size - r.consumedData < 4 then r.readBlock else .ok (true, r)

/-- The loop that makes sure we have enough for the message. -/
def ensureMessage : Nat → Nat → SpanReader D → Except SpanReaderCheck (Bool × SpanReader D)
  | 0, _, _ => .error .rounds
  | rounds + 1, dataSize, r =>
    if r.data.size < r.consumedData + dataSize then do
      let (more, r) ← r.readBlock
      if more then ensureMessage rounds dataSize r else .ok (false, r)
    else .ok (true, r)

/-- `PeekMessage`. Each round of its loop reads at least one byte. -/
def peekMessage : Except SpanReaderCheck (Bytes × SpanReader D) := do
  let (enough, r) ← r.ensureSize
  if enough then do
    let size ← r.data.getPrefixedSize r.consumedData
    let dataSize := size + 4
    if dataSize = 4 then .ok ([], r)
    else do
      let (enough, r) ← ensureMessage (dataSize + 1) dataSize r
      .ok (if enough then (r.data.storage.drop r.consumedData).take dataSize else [], r)
  else .ok ([], r)

def consumeMessage : Except SpanReaderCheck (SpanReader D) := do
  let size ← r.data.getPrefixedSize r.consumedData
  .ok ⟨r.decoder, r.data, r.consumedData + (size + 4)⟩

def readMessage : Except SpanReaderCheck (Bytes × SpanReader D) := do
  let (result, r) ← r.peekMessage
  if result ≠ [] then do
    let r ← r.consumeMessage
    .ok (result, r)
  else .ok (result, r)

inductive Call where
  | peekMessage
  | readMessage
deriving DecidableEq, Repr

def call : Call → Except SpanReaderCheck (Bytes × SpanReader D)
  | .peekMessage => r.peekMessage
  | .readMessage => r.readMessage

def run (r : SpanReader D) : List Call → Except SpanReaderCheck (List Bytes × SpanReader D)
  | [] => .ok ([], r)
  | c :: calls => do
      let (result, r) ← r.call c
      let (results, r) ← r.run calls
      .ok (result :: results, r)

end SpanReader

def prefixedSize (bytes : Bytes) : Nat := LittleEndian.combine (bytes.take 4)

def Complete (message : Bytes) : Prop := 0 < prefixedSize message ∧ message.length = prefixedSize message + 4

/-- The complete messages at the front of a stream. What is left does not start with one. -/
structure Framed (stream : Bytes) (messages : List Bytes) (rest : Bytes) : Prop where
  stream_eq : stream = messages.flatten ++ rest
  complete : ∀ m ∈ messages, Complete m
  maximal : ∀ m after, rest = m ++ after → ¬ Complete m

def firstMessage (stream : Bytes) : Bytes :=
  if 0 < prefixedSize stream ∧ prefixedSize stream + 4 ≤ stream.length then stream.take (prefixedSize stream + 4) else []

theorem prefixedSize_append {a : Bytes} (h : 4 ≤ a.length) (b : Bytes) : prefixedSize (a ++ b) = prefixedSize a := by
  rw [prefixedSize, take_append_of_le_length h, prefixedSize]

theorem firstMessage_append {m : Bytes} (h : Complete m) (after : Bytes) : firstMessage (m ++ after) = m := by
  have hsize : prefixedSize (m ++ after) = prefixedSize m := prefixedSize_append (by rw [h.2]; omega) after
  rw [firstMessage, hsize, if_pos ⟨h.1, by rw [length_append, h.2]; omega⟩, ← h.2, take_left']
  rfl

theorem firstMessage_cases (stream : Bytes) :
    (Complete (firstMessage stream) ∧ stream = firstMessage stream ++ stream.drop (firstMessage stream).length) ∨
      firstMessage stream = [] ∧ ∀ m after, stream = m ++ after → ¬ Complete m := by
  by_cases h : 0 < prefixedSize stream ∧ prefixedSize stream + 4 ≤ stream.length
  · left
    have hlength : (stream.take (prefixedSize stream + 4)).length = prefixedSize stream + 4 := by
      rw [length_take]
      omega
    have hsize : prefixedSize (stream.take (prefixedSize stream + 4)) = prefixedSize stream := by
      rw [prefixedSize, take_take, min_eq_left (by omega), prefixedSize]
    rw [firstMessage, if_pos h, hlength, take_append_drop]
    exact ⟨⟨by rw [hsize]; exact h.1, by rw [hlength, hsize]⟩, rfl⟩
  · right
    rw [firstMessage, if_neg h]
    refine ⟨rfl, fun m after heq hm => h ?_⟩
    have hfirst := firstMessage_append hm after
    rw [← heq, firstMessage, if_neg h] at hfirst
    have := hm.2
    simp [← hfirst] at this

theorem exists_framed (stream : Bytes) : ∃ messages rest, Framed stream messages rest := by
  induction hn : stream.length using Nat.strong_induction_on generalizing stream with
  | _ n ih =>
    rcases firstMessage_cases stream with ⟨hcomplete, heq⟩ | ⟨-, hnone⟩
    · have hpos : 0 < (firstMessage stream).length := by rw [hcomplete.2]; omega
      have hle : (firstMessage stream).length ≤ stream.length := by
        rw [heq, length_append, ← heq]
        omega
      obtain ⟨messages, rest, h⟩ := ih _ (by rw [length_drop]; omega)
        (stream.drop (firstMessage stream).length) rfl
      refine ⟨firstMessage stream :: messages, rest, ?_, forall_mem_cons.mpr ⟨hcomplete, h.complete⟩, h.maximal⟩
      rw [flatten_cons, append_assoc, ← h.stream_eq]
      exact heq
    · exact ⟨[], stream, rfl, by simp, hnone⟩

theorem Framed.firstMessage_eq {stream rest : Bytes} {messages : List Bytes} (h : Framed stream messages rest) :
    firstMessage stream = messages.getD 0 [] := by
  cases messages with
  | nil =>
    rcases firstMessage_cases stream with ⟨hcomplete, heq⟩ | ⟨hnil, -⟩
    · exact absurd hcomplete (h.maximal _ _ (h.stream_eq.symm.trans heq))
    · exact hnil
  | cons m messages =>
    rw [h.stream_eq, flatten_cons, append_assoc]
    exact firstMessage_append (h.complete m (by simp)) _

theorem Framed.drop {stream rest : Bytes} {messages : List Bytes} (h : Framed stream messages rest) :
    Framed (stream.drop (firstMessage stream).length) messages.tail rest := by
  rw [h.firstMessage_eq]
  refine ⟨?_, fun m hm => h.complete m (mem_of_mem_tail hm), h.maximal⟩
  cases messages with
  | nil => exact h.stream_eq
  | cons m messages => simp [h.stream_eq]

/-! ### The reader hands out the messages -/

namespace ResizeableBuffer

theorem length_content (b : ResizeableBuffer) : b.content.length = b.size := by
  rw [content, length_take, min_eq_left b.size_le]

variable {b : ResizeableBuffer}

theorem eraseFront_spec {count : Nat} (h : count ≤ b.size) :
    ∃ b', b.eraseFront count = .ok b' ∧ b'.content = b.content.drop count := by
  by_cases hzero : count = 0
  · exact ⟨b, if_pos hzero, by rw [hzero, drop_zero]⟩
  · rw [eraseFront, if_neg hzero, if_pos h]
    refine ⟨_, rfl, take_left' ?_⟩
    rw [length_drop, length_content]

theorem content_block (b : ResizeableBuffer) {range : Bytes} {count : Nat} (h : count ≤ range.length) (room : Nat) :
    (((b.resize (b.size + room)).overwrite b.size range).resize (b.size + count)).content =
      b.content ++ range.take count := by
  have hfront : (b.resize (b.size + room)).storage.take b.size = b.content := take_append_of_le_length b.size_le
  rw [content, resize, overwrite]
  simp only [hfront]
  rw [append_assoc, append_assoc, take_append, length_content, Nat.add_sub_cancel_left,
    take_of_length_le (by rw [length_content]; omega), take_append_of_le_length h]

theorem take_drop_storage {start n : Nat} (h : start + n ≤ b.size) :
    (b.storage.drop start).take n = (b.content.drop start).take n := by
  rw [content, drop_take, take_take, min_eq_left (by omega)]

theorem getPrefixedSize_content {start : Nat} (h : start + 4 ≤ b.size) :
    b.getPrefixedSize start = .ok (prefixedSize (b.content.drop start)) := by
  rw [getPrefixedSize, if_pos (show start + 4 ≤ b.capacity from h.trans b.size_le), take_drop_storage h, prefixedSize]

end ResizeableBuffer

namespace SpanReader

variable {D : DataDecoder} {r : SpanReader D}

def unread (r : SpanReader D) : Bytes := r.data.content.drop r.consumedData

def left (r : SpanReader D) : Bytes := r.unread ++ D.remaining r.decoder

/-- The cursor is inside of the buffer. -/
def Valid (r : SpanReader D) : Prop := r.consumedData ≤ r.data.size

open ResizeableBuffer

theorem length_unread (r : SpanReader D) : r.unread.length = r.data.size - r.consumedData := by
  rw [unread, length_drop, length_content]

section

variable (h : r.Valid)

include h

theorem Valid.add_length_unread : r.consumedData + r.unread.length = r.data.size := by
  rw [length_unread]
  exact Nat.add_sub_cancel' h

/-- A block of bytes comes behind the unread ones. It is shorter than what was asked for only at the end. -/
theorem Valid.readBlock : ∃ block r', r.readBlock = .ok (decide (block ≠ []), r') ∧ r'.Valid ∧
    r'.unread = r.unread ++ block ∧ D.remaining r.decoder = block ++ D.remaining r'.decoder ∧
    (block.length < kReadSize → D.remaining r'.decoder = []) ∧ r'.consumedData + 4 ≤ r'.data.capacity := by
  obtain ⟨data, herase, hdata⟩ := eraseFront_spec h
  have hread : r.readBlock = .ok (decide ((D.read r.decoder kReadSize).count ≠ 0), ⟨(D.read r.decoder kReadSize).decoder,
      ((data.resize (data.size + kReadSize)).overwrite data.size (D.read r.decoder kReadSize).range).resize
        (data.size + (D.read r.decoder kReadSize).count), 0⟩) := by
    have hroom : (data.resize (data.size + kReadSize)).size - data.size = kReadSize := Nat.add_sub_cancel_left ..
    simp [SpanReader.readBlock, herase, bind, Except.bind, hroom]
  have hlength := D.length_range r.decoder kReadSize
  have hcount := D.count_le r.decoder kReadSize
  have hremaining := D.remaining_eq r.decoder kReadSize (by decide)
  have hend := D.all_read r.decoder kReadSize
  generalize D.read r.decoder kReadSize = result at *
  have hblock : (result.range.take result.count).length = result.count := by
    rw [length_take]
    omega
  have hnil : result.range.take result.count = [] ↔ result.count = 0 := by
    rw [← length_eq_zero_iff, hblock]
  have hcontent := data.content_block (hcount.trans hlength.ge) kReadSize
  have hcapacity : kReadSize ≤ (((data.resize (data.size + kReadSize)).overwrite data.size result.range).resize
      (data.size + result.count)).capacity := by
    simp only [capacity, resize, overwrite, length_append, hlength]
    omega
  generalize ((data.resize (data.size + kReadSize)).overwrite data.size result.range).resize
    (data.size + result.count) = data' at *
  refine ⟨result.range.take result.count, ⟨result.decoder, data', 0⟩, ?_, Nat.zero_le _, ?_, hremaining,
    fun hshort => hend (hblock ▸ hshort), le_trans (show 0 + 4 ≤ kReadSize by decide) hcapacity⟩
  · simp [hread, ne_eq, hnil]
  · rw [unread, drop_zero, hcontent, hdata, unread]

theorem Valid.ensureMessage {dataSize rounds : Nat} (hrounds : dataSize ≤ r.unread.length + rounds) :
    ∃ r', ensureMessage (rounds + 1) dataSize r = .ok (decide (dataSize ≤ r.left.length), r') ∧ r'.Valid ∧
      r'.left = r.left ∧ (dataSize ≤ r.left.length → dataSize ≤ r'.unread.length) := by
  induction rounds generalizing r with
  | zero =>
    have hlength := h.add_length_unread
    have hall : dataSize ≤ r.left.length := by
      rw [left, length_append]
      omega
    refine ⟨r, ?_, h, rfl, fun _ => hrounds⟩
    rw [ensureMessage, if_neg (by omega), decide_eq_true hall]
  | succ rounds ih =>
    have hlength := h.add_length_unread
    rw [ensureMessage]
    by_cases hmore : r.data.size < r.consumedData + dataSize
    · obtain ⟨block, r1, hread, hvalid, hunread, hremaining, hend, -⟩ := h.readBlock
      have hleft : r1.left = r.left := by rw [left, left, hunread, hremaining, append_assoc]
      rw [if_pos hmore, hread]
      by_cases hblock : block = []
      · have hshort : ¬ dataSize ≤ r.left.length := by
          rw [← hleft, left, hend (by rw [hblock]; decide), hunread, hblock, append_nil, append_nil]
          omega
        exact ⟨r1, by simp [hblock, hshort, bind, Except.bind], hvalid, hleft, fun hle => absurd hle hshort⟩
      · have hpos := length_pos_iff.mpr hblock
        obtain ⟨r', hloop, hrest⟩ := ih hvalid (by rw [hunread, length_append]; omega)
        rw [hleft] at hloop hrest
        exact ⟨r', by simpa [hblock, bind, Except.bind] using hloop, hrest⟩
    · have hall : dataSize ≤ r.unread.length := by omega
      have hall' : dataSize ≤ r.left.length := by
        rw [left, length_append]
        omega
      exact ⟨r, by rw [if_neg hmore, decide_eq_true hall'], h, rfl, fun _ => hall⟩

theorem Valid.ensureSize : ∃ enough r', r.ensureSize = .ok (enough, r') ∧ r'.Valid ∧ r'.left = r.left ∧
    (enough = false → r.left.length < 4) ∧
    ∃ size, r'.data.getPrefixedSize r'.consumedData = .ok size ∧ (4 ≤ r.left.length → size = prefixedSize r.left) := by
  have hsize : ∀ r' : SpanReader D, r'.left = r.left → 4 ≤ r'.unread.length →
      r'.data.getPrefixedSize r'.consumedData = .ok (prefixedSize r.left) := by
    intro r' hleft hlength
    rw [getPrefixedSize_content (by rw [length_unread] at hlength; omega), ← hleft, left,
      prefixedSize_append hlength, unread]
  rw [SpanReader.ensureSize]
  by_cases hfew : r.data.size - r.consumedData < 4
  · obtain ⟨block, r', hread, hvalid, hunread, hremaining, hend, hcapacity⟩ := h.readBlock
    have hleft : r'.left = r.left := by rw [left, left, hunread, hremaining, append_assoc]
    rw [if_pos hfew]
    have hshort : r'.unread.length < 4 → r.left.length < 4 := by
      intro hlt
      have hblock : block.length < kReadSize := by
        rw [hunread, length_append] at hlt
        exact lt_trans (by omega) (show 4 < kReadSize by decide)
      rwa [← hleft, left, hend hblock, append_nil]
    refine ⟨_, r', hread, hvalid, hleft, fun hnone => hshort ?_, ?_⟩
    · have hblock : block = [] := by simpa using hnone
      rwa [hunread, hblock, append_nil, length_unread]
    · by_cases hlt : r'.unread.length < 4
      · exact ⟨_, if_pos hcapacity, fun hle => absurd (hshort hlt) (by omega)⟩
      · exact ⟨_, hsize r' hleft (by omega), fun _ => rfl⟩
  · rw [if_neg hfew]
    exact ⟨true, r, rfl, h, rfl, by simp, _, hsize r rfl (by rw [length_unread]; omega), fun _ => rfl⟩

omit h in
theorem firstMessage_of_short {stream : Bytes} {size : Nat} (hsize : 4 ≤ stream.length → size = prefixedSize stream)
    (h : size = 0 ∨ stream.length < size + 4) : firstMessage stream = [] := by
  rw [firstMessage, if_neg]
  rintro ⟨hpos, hle⟩
  have := hsize (by omega)
  omega

theorem Valid.peekMessage : ∃ r', r.peekMessage = .ok (firstMessage r.left, r') ∧ r'.Valid ∧
    r'.left = r.left ∧ (firstMessage r.left).length ≤ r'.unread.length := by
  obtain ⟨enough, r1, hensure, hvalid1, hleft1, hnone, size, hget, hsize⟩ := h.ensureSize
  rw [SpanReader.peekMessage, hensure]
  cases enough with
  | false =>
    have hfirst : firstMessage r.left = [] := firstMessage_of_short hsize (.inr (by have := hnone rfl; omega))
    exact ⟨r1, by simp [hfirst, bind, Except.bind], hvalid1, hleft1, by simp [hfirst]⟩
  | true =>
    simp only [bind, Except.bind, hget, if_true]
    by_cases hzero : size = 0
    · have hfirst := firstMessage_of_short hsize (.inl hzero)
      exact ⟨r1, by simp [hfirst, hzero], hvalid1, hleft1, by simp [hfirst]⟩
    · obtain ⟨r', hloop, hvalid, hleft, hall⟩ := hvalid1.ensureMessage (Nat.le_add_left (size + 4) _)
      rw [hleft1] at hloop hleft hall
      rw [if_neg (by omega), hloop]
      by_cases hle : size + 4 ≤ r.left.length
      · have hunread := hall hle
        have heq : firstMessage r.left = r'.unread.take (size + 4) := by
          rw [firstMessage, ← hsize (by omega), if_pos ⟨Nat.pos_of_ne_zero hzero, hle⟩, ← hleft, left,
            take_append_of_le_length hunread]
        have hspan : (r'.data.storage.drop r'.consumedData).take (size + 4) = r'.unread.take (size + 4) :=
          take_drop_storage (by have := hvalid.add_length_unread; omega)
        exact ⟨r', by simp [heq, hle, hspan], hvalid, hleft, by rw [heq, length_take]; exact min_le_right _ _⟩
      · have hfirst := firstMessage_of_short hsize (.inr (not_le.mp hle))
        exact ⟨r', by simp [hfirst, hle], hvalid, hleft, by simp [hfirst]⟩

theorem Valid.readMessage : ∃ r', r.readMessage = .ok (firstMessage r.left, r') ∧ r'.Valid ∧
    r'.left = r.left.drop (firstMessage r.left).length := by
  obtain ⟨r1, hpeek, hvalid, hleft, hunread⟩ := h.peekMessage
  rw [SpanReader.readMessage, hpeek]
  rcases firstMessage_cases r.left with ⟨hcomplete, hsplit⟩ | ⟨hnil, -⟩
  · have hne : firstMessage r.left ≠ [] := fun hnil => by simpa [hnil] using hcomplete.2
    have hlength := hvalid.add_length_unread
    have hfour : 4 ≤ (firstMessage r.left).length := by rw [hcomplete.2]; omega
    have hsize : prefixedSize r1.unread = prefixedSize (firstMessage r.left) := by
      rw [← prefixedSize_append (hfour.trans hunread) (D.remaining r1.decoder), ← left, hleft, hsplit,
        prefixedSize_append hfour, ← hsplit]
    have hconsume : r1.consumeMessage = .ok ⟨r1.decoder, r1.data, r1.consumedData + (firstMessage r.left).length⟩ := by
      rw [consumeMessage, getPrefixedSize_content (by omega), ← unread, hsize, hcomplete.2]
      rfl
    refine ⟨⟨r1.decoder, r1.data, r1.consumedData + (firstMessage r.left).length⟩,
      by simp only [bind, Except.bind, if_pos hne, hconsume], ?_, ?_⟩
    · show r1.consumedData + (firstMessage r.left).length ≤ r1.data.size
      omega
    · calc
        _ = r1.unread.drop (firstMessage r.left).length ++ D.remaining r1.decoder := by
          rw [left, unread, unread, drop_drop]
        _ = r1.left.drop (firstMessage r.left).length := (drop_append_of_le_length hunread).symm
        _ = _ := by rw [hleft]
  · exact ⟨r1, by simp [hnil, bind, Except.bind], hvalid, by simp [hnil, hleft]⟩

theorem Valid.call {messages : List Bytes} {rest : Bytes} (hframed : Framed r.left messages rest)
    (c : Call) : ∃ r', r.call c = .ok (messages.getD 0 [], r') ∧ r'.Valid ∧
      Framed r'.left (messages.drop ([c].count .readMessage)) rest := by
  rw [← hframed.firstMessage_eq]
  cases c with
  | peekMessage =>
    obtain ⟨r', hpeek, hvalid, hleft, -⟩ := h.peekMessage
    exact ⟨r', hpeek, hvalid, by simpa [hleft] using hframed⟩
  | readMessage =>
    obtain ⟨r', hread, hvalid, hleft⟩ := h.readMessage
    exact ⟨r', hread, hvalid, by simpa [hleft] using hframed.drop⟩

theorem Valid.run {messages : List Bytes} {rest : Bytes} (hframed : Framed r.left messages rest)
    (calls : List Call) : ∃ results r', r.run calls = .ok (results, r') ∧ results.length = calls.length ∧
      ∀ k < calls.length, results[k]? = some (messages.getD ((calls.take k).count .readMessage) []) := by
  induction calls generalizing r messages with
  | nil => exact ⟨[], r, rfl, rfl, by simp⟩
  | cons c calls ih =>
    obtain ⟨r1, hcall, hvalid, hframed1⟩ := h.call hframed c
    obtain ⟨results, r', hrun, hlength, hresults⟩ := ih hvalid hframed1
    refine ⟨messages.getD 0 [] :: results, r', ?_, by rw [length_cons, hlength, length_cons], ?_⟩
    · simp [run, hcall, hrun, bind, Except.bind]
    · intro k hk
      cases k with
      | zero => rfl
      | succ k =>
        have hcount : (c :: calls.take k).count Call.readMessage =
            [c].count .readMessage + (calls.take k).count .readMessage := by
          rw [← count_append, singleton_append]
        rw [getElem?_cons_succ, hresults k (Nat.lt_of_succ_lt_succ hk), take_succ_cons, hcount]
        simp [getD_eq_getElem?_getD, getElem?_drop]

end

/-- `ReadMessage` returns the complete messages of the file one after the other, and then nothing. What a call returns depends
only on how many came before. -/
theorem readMessage_framing (D : DataDecoder) (decoder : D.State) : ∃ messages rest,
    Framed (D.remaining decoder) messages rest ∧ ∀ calls, ∃ results r,
      (make decoder).run calls = .ok (results, r) ∧ results.length = calls.length ∧
        ∀ k < calls.length, results[k]? = some (messages.getD ((calls.take k).count .readMessage) []) := by
  obtain ⟨messages, rest, hframed⟩ := exists_framed (D.remaining decoder)
  exact ⟨messages, rest, hframed, Valid.run (r := make decoder) le_rfl hframed⟩

end SpanReader

end RobotCode.Logging
