import RobotCode.Lib.LittleEndian
import RobotCode.Logging.BufferWriter

/-!
# Compressed log files

Buffers are gathered into chunks, each chunk is compressed and written with its length and a checksum. The
reader undoes this for ranges of any sizes. What the chunks are does not show.
-/

namespace RobotCode.Logging

open List LittleEndian

def crc32Table : Array UInt32 := #[
  0x00000000, 0x77073096, 0xee0e612c, 0x990951ba, 0x076dc419, 0x706af48f, 0xe963a535, 0x9e6495a3,
  0x0edb8832, 0x79dcb8a4, 0xe0d5e91e, 0x97d2d988, 0x09b64c2b, 0x7eb17cbd, 0xe7b82d07, 0x90bf1d91,
  0x1db71064, 0x6ab020f2, 0xf3b97148, 0x84be41de, 0x1adad47d, 0x6ddde4eb, 0xf4d4b551, 0x83d385c7,
  0x136c9856, 0x646ba8c0, 0xfd62f97a, 0x8a65c9ec, 0x14015c4f, 0x63066cd9, 0xfa0f3d63, 0x8d080df5,
  0x3b6e20c8, 0x4c69105e, 0xd56041e4, 0xa2677172, 0x3c03e4d1, 0x4b04d447, 0xd20d85fd, 0xa50ab56b,
  0x35b5a8fa, 0x42b2986c, 0xdbbbc9d6, 0xacbcf940, 0x32d86ce3, 0x45df5c75, 0xdcd60dcf, 0xabd13d59,
  0x26d930ac, 0x51de003a, 0xc8d75180, 0xbfd06116, 0x21b4f4b5, 0x56b3c423, 0xcfba9599, 0xb8bda50f,
  0x2802b89e, 0x5f058808, 0xc60cd9b2, 0xb10be924, 0x2f6f7c87, 0x58684c11, 0xc1611dab, 0xb6662d3d,
  0x76dc4190, 0x01db7106, 0x98d220bc, 0xefd5102a, 0x71b18589, 0x06b6b51f, 0x9fbfe4a5, 0xe8b8d433,
  0x7807c9a2, 0x0f00f934, 0x9609a88e, 0xe10e9818, 0x7f6a0dbb, 0x086d3d2d, 0x91646c97, 0xe6635c01,
  0x6b6b51f4, 0x1c6c6162, 0x856530d8, 0xf262004e, 0x6c0695ed, 0x1b01a57b, 0x8208f4c1, 0xf50fc457,
  0x65b0d9c6, 0x12b7e950, 0x8bbeb8ea, 0xfcb9887c, 0x62dd1ddf, 0x15da2d49, 0x8cd37cf3, 0xfbd44c65,
  0x4db26158, 0x3ab551ce, 0xa3bc0074, 0xd4bb30e2, 0x4adfa541, 0x3dd895d7, 0xa4d1c46d, 0xd3d6f4fb,
  0x4369e96a, 0x346ed9fc, 0xad678846, 0xda60b8d0, 0x44042d73, 0x33031de5, 0xaa0a4c5f, 0xdd0d7cc9,
  0x5005713c, 0x270241aa, 0xbe0b1010, 0xc90c2086, 0x5768b525, 0x206f85b3, 0xb966d409, 0xce61e49f,
  0x5edef90e, 0x29d9c998, 0xb0d09822, 0xc7d7a8b4, 0x59b33d17, 0x2eb40d81, 0xb7bd5c3b, 0xc0ba6cad,
  0xedb88320, 0x9abfb3b6, 0x03b6e20c, 0x74b1d29a, 0xead54739, 0x9dd277af, 0x04db2615, 0x73dc1683,
  0xe3630b12, 0x94643b84, 0x0d6d6a3e, 0x7a6a5aa8, 0xe40ecf0b, 0x9309ff9d, 0x0a00ae27, 0x7d079eb1,
  0xf00f9344, 0x8708a3d2, 0x1e01f268, 0x6906c2fe, 0xf762575d, 0x806567cb, 0x196c3671, 0x6e6b06e7,
  0xfed41b76, 0x89d32be0, 0x10da7a5a, 0x67dd4acc, 0xf9b9df6f, 0x8ebeeff9, 0x17b7be43, 0x60b08ed5,
  0xd6d6a3e8, 0xa1d1937e, 0x38d8c2c4, 0x4fdff252, 0xd1bb67f1, 0xa6bc5767, 0x3fb506dd, 0x48b2364b,
  0xd80d2bda, 0xaf0a1b4c, 0x36034af6, 0x41047a60, 0xdf60efc3, 0xa867df55, 0x316e8eef, 0x4669be79,
  0xcb61b38c, 0xbc66831a, 0x256fd2a0, 0x5268e236, 0xcc0c7795, 0xbb0b4703, 0x220216b9, 0x5505262f,
  0xc5ba3bbe, 0xb2bd0b28, 0x2bb45a92, 0x5cb36a04, 0xc2d7ffa7, 0xb5d0cf31, 0x2cd99e8b, 0x5bdeae1d,
  0x9b64c2b0, 0xec63f226, 0x756aa39c, 0x026d930a, 0x9c0906a9, 0xeb0e363f, 0x72076785, 0x05005713,
  0x95bf4a82, 0xe2b87a14, 0x7bb12bae, 0x0cb61b38, 0x92d28e9b, 0xe5d5be0d, 0x7cdcefb7, 0x0bdbdf21,
  0x86d3d2d4, 0xf1d4e242, 0x68ddb3f8, 0x1fda836e, 0x81be16cd, 0xf6b9265b, 0x6fb077e1, 0x18b74777,
  0x88085ae6, 0xff0f6a70, 0x66063bca, 0x11010b5c, 0x8f659eff, 0xf862ae69, 0x616bffd3, 0x166ccf45,
  0xa00ae278, 0xd70dd2ee, 0x4e048354, 0x3903b3c2, 0xa7672661, 0xd06016f7, 0x4969474d, 0x3e6e77db,
  0xaed16a4a, 0xd9d65adc, 0x40df0b66, 0x37d83bf0, 0xa9bcae53, 0xdebb9ec5, 0x47b2cf7f, 0x30b5ffe9,
  0xbdbdf21c, 0xcabac28a, 0x53b39330, 0x24b4a3a6, 0xbad03605, 0xcdd70693, 0x54de5729, 0x23d967bf,
  0xb3667a2e, 0xc4614ab8, 0x5d681b02, 0x2a6f2b94, 0xb40bbe37, 0xc30c8ea1, 0x5a05df1b, 0x2d02ef8d]

/-- Continues a checksum, or starts one. -/
def accumulateCrc32 (data : Bytes) (current : Option UInt32) : UInt32 :=
  data.foldl (fun crc n => crc32Table.getD ((crc ^^^ n.toUInt32) &&& 0xff).toNat 0 ^^^ (crc >>> 8))
    (current.getD 0xffffffff)

def computeCrc32 (data : Bytes) : UInt32 := accumulateCrc32 data none

/-- One bit of the division by the polynomial, with the lowest bit first. -/
def crc32Shift (crc : UInt32) : UInt32 := if crc &&& 1 = 1 then (crc >>> 1) ^^^ 0xedb88320 else crc >>> 1

/-- Each word of the table is its index, divided bit by bit. The polynomial is that of Ethernet and not the one of
CRC-32C. -/
theorem crc32Table_eq : ∀ i < 256, crc32Table.getD i 0 = crc32Shift^[8] (UInt32.ofNat i) := by
  decide +kernel

/-- The checksum of buffers one after another is that of all their data. -/
theorem accumulateCrc32_append (a b : Bytes) (current : Option UInt32) :
    accumulateCrc32 (a ++ b) current = accumulateCrc32 b (some (accumulateCrc32 a current)) := by
  rw [accumulateCrc32, foldl_append]
  rfl

def maskChecksum (x : UInt32) : UInt32 := ((x >>> 15) ||| (x <<< 17)) + 0xa282ead8

def snappyChecksum (data : Bytes) : UInt32 := maskChecksum (computeCrc32 data)

/-- What ends the program, or keeps it from going on. -/
inductive SnappyCheck
  /-- Nothing is left to skip. -/
  | emptySource
  /-- "is too large a skip." -/
  | longSkip
  /-- The compressor is shown an empty buffer, for ever. -/
  | emptyBuffer
  /-- There is data without a checksum. -/
  | missingChecksum
  /-- The compressed data does not fit into the space for it. -/
  | longData
  | longChunk
  | dataLeft
  | unknownLength
  /-- "Corrupted snappy chunk." -/
  | corruptedChunk
  /-- "Checksum mismatch." -/
  | checksumMismatch
  | unsupportedChunk
  deriving DecidableEq, Repr

/-- The buffers of a chunk, as the compressor reads them. -/
structure DetachedBufferSource where
  buffers : List Bytes := []
  indexIntoFirstBuffer : Nat := 0
  deriving DecidableEq

namespace DetachedBufferSource

def available (source : DetachedBufferSource) : Nat := (source.buffers.map length).sum

def peek (source : DetachedBufferSource) : Bytes := (source.buffers.headD []).drop source.indexIntoFirstBuffer

def skip (n : Nat) (source : DetachedBufferSource) : Except SnappyCheck DetachedBufferSource :=
  if n = 0 then .ok source
  else match source.buffers with
    | [] => .error .emptySource
    | first :: rest =>
      let index := source.indexIntoFirstBuffer + n
      if ¬ index ≤ first.length then .error .longSkip
      else if index = first.length then .ok ⟨rest, 0⟩
      else .ok ⟨first :: rest, index⟩

def appendBuffer (buffer : Bytes) (source : DetachedBufferSource) : DetachedBufferSource :=
  { source with buffers := source.buffers ++ [buffer] }

end DetachedBufferSource

/-- The snappy library. It takes the data in pieces of what the source shows, and uncompressing undoes compressing. -/
structure Snappy where
  compress : Bytes → Bytes
  /-- How much it takes of a piece of the given length, after it took some bytes. -/
  advance : Nat → Nat → Nat
  advance_pos : ∀ taken length, 0 < length → 0 < advance taken length
  advance_le : ∀ taken length, advance taken length ≤ length
  maxCompressedLength : Nat → Nat
  length_compress_lt : ∀ data, (compress data).length < maxCompressedLength data.length
  getUncompressedLength : Bytes → Option Nat
  getUncompressedLength_compress : ∀ data, getUncompressedLength (compress data) = some data.length
  rawUncompress : Bytes → Option Bytes
  rawUncompress_compress : ∀ data, rawUncompress (compress data) = some data

variable (z : Snappy)

/-- Takes `left` bytes out of a source, behind those that were taken. -/
def Snappy.take (left : Nat) (taken : Bytes) (source : DetachedBufferSource) :
    Except SnappyCheck (Bytes × DetachedBufferSource) :=
  if left = 0 then .ok (taken, source)
  else
    let n := min left (z.advance taken.length source.peek.length)
    if n = 0 then .error .emptyBuffer
    else match source.skip n with
      | .error e => .error e
      | .ok rest => take (left - n) (taken ++ source.peek.take n) rest
termination_by left
decreasing_by omega

def chunk (type : UInt8) (checksum : UInt32) (compressed : Bytes) : Bytes :=
  type :: split 3 (compressed.length + 4) ++ (split 4 checksum.toNat ++ compressed)

def snappyIdentifierChunk : Bytes := [0xff, 0x06, 0x00, 0x00, 0x73, 0x4e, 0x61, 0x50, 0x70, 0x59]

structure SnappyEncoder where
  bufferSource : DetachedBufferSource := {}
  accumulatedChecksum : Option UInt32 := none
  queue : List Bytes := [snappyIdentifierChunk]
  deriving DecidableEq

namespace SnappyEncoder

def encodeCurrentBuffer (e : SnappyEncoder) : Except SnappyCheck SnappyEncoder := do
  if e.bufferSource.available = 0 then return e
  let some checksum := e.accumulatedChecksum | throw .missingChecksum
  let available := e.bufferSource.available
  let (data, bufferSource) ← z.take available [] e.bufferSource
  let compressed := z.compress data
  if ¬ compressed.length + 8 < 8 + z.maxCompressedLength available then throw .longData
  if ¬ compressed.length + 4 < 2 ^ 24 then throw .longChunk
  if bufferSource.available ≠ 0 then throw .dataLeft
  return { bufferSource, accumulatedChecksum := none, queue := e.queue ++ [chunk 0 (maskChecksum checksum) compressed] }

def encode (chunkSize : Nat) (buffer : Bytes) (e : SnappyEncoder) : Except SnappyCheck SnappyEncoder :=
  let e := { e with
    accumulatedChecksum := some (accumulateCrc32 buffer e.accumulatedChecksum)
    bufferSource := e.bufferSource.appendBuffer buffer }
  if e.bufferSource.available ≥ chunkSize then encodeCurrentBuffer z e else .ok e

def finish (e : SnappyEncoder) : Except SnappyCheck SnappyEncoder := encodeCurrentBuffer z e

def encodeAll (chunkSize : Nat) (buffers : List Bytes) : Except SnappyCheck Bytes := do
  let e ← buffers.foldlM (fun e buffer => encode z chunkSize buffer e) {}
  let e ← finish z e
  return e.queue.flatten

end SnappyEncoder

/-- A decoder, with what is left of the file. The decoder of the file fills every range until there is nothing
left. -/
structure SnappyDecoder where
  file : Bytes
  uncompressedBuffer : Bytes := []
  deriving DecidableEq

namespace SnappyDecoder

/-- The loop that reads chunks until the range is full: `room` bytes are missing after `output`. -/
def readChunks (room : Nat) (output file : Bytes) : Except SnappyCheck (Bytes × SnappyDecoder) :=
  if room = 0 then .ok (output, ⟨file, []⟩)
  else match file with
    | type :: l₀ :: l₁ :: l₂ :: rest =>
      let size := combine [l₀, l₁, l₂]
      let compressed := rest.take size
      let file := rest.drop size
      -- Logfile data is truncated.
      if compressed.length ≠ size then .ok (output, ⟨file, []⟩)
      else if type = 0xff then readChunks room output file
      else if type = 0x00 then
        if compressed.length < 4 then .ok (output, ⟨file, []⟩)
        else
          let checksum := combine (compressed.take 4)
          let input := compressed.drop 4
          match z.getUncompressedLength input with
          | none => .error .unknownLength
          | some length =>
            match z.rawUncompress input with
            | none => .error .corruptedChunk
            | some data =>
              if checksum ≠ (snappyChecksum data).toNat then .error .checksumMismatch
              else if room > length then readChunks (room - length) (output ++ data) file
              else .ok (output ++ data.take room, ⟨file, data.drop room⟩)
      else .error .unsupportedChunk
    | _ => .ok (output, ⟨[], []⟩)
termination_by file.length
decreasing_by all_goals simp [length_drop]; omega

/-- Reads up to `n` bytes. -/
def read (n : Nat) (d : SnappyDecoder) : Except SnappyCheck (Bytes × SnappyDecoder) :=
  let output := d.uncompressedBuffer.take n
  let buffer := d.uncompressedBuffer.drop n
  if buffer = [] then readChunks z (n - output.length) output d.file
  else .ok (output, ⟨d.file, buffer⟩)

def reads (d : SnappyDecoder) : List Nat → Except SnappyCheck (List Bytes)
  | [] => .ok []
  | n :: ns => do
    let (output, d) ← read z n d
    return output :: (← reads d ns)

end SnappyDecoder

/-! ### Encoding -/

namespace DetachedBufferSource

/-- The data that was not skipped. -/
def content (source : DetachedBufferSource) : Bytes := source.buffers.flatten.drop source.indexIntoFirstBuffer

structure Valid (source : DetachedBufferSource) : Prop where
  ne_nil : ∀ b ∈ source.buffers, b ≠ []
  index_lt : ∀ first rest, source.buffers = first :: rest → source.indexIntoFirstBuffer < first.length
  index_nil : source.buffers = [] → source.indexIntoFirstBuffer = 0

theorem available_eq (source : DetachedBufferSource) : source.available = source.buffers.flatten.length := by
  rw [available, length_flatten]

variable {source : DetachedBufferSource}

theorem Valid.peek_eq (h : source.Valid) (hcontent : source.content ≠ []) :
    ∃ first rest, source.buffers = first :: rest ∧ source.peek = first.drop source.indexIntoFirstBuffer ∧
      source.content = source.peek ++ rest.flatten := by
  cases hbuffers : source.buffers with
  | nil =>
    rw [content, hbuffers] at hcontent
    simp at hcontent
  | cons first rest =>
    have hindex := (h.index_lt first rest hbuffers).le
    refine ⟨first, rest, rfl, by rw [peek, hbuffers, headD_cons], ?_⟩
    rw [content, peek, hbuffers, headD_cons, flatten_cons, drop_append_of_le_length hindex]

theorem Valid.eq_nil (h : source.Valid) (hcontent : source.content = []) : source = ⟨[], 0⟩ := by
  cases hbuffers : source.buffers with
  | nil =>
    have hindex := h.index_nil hbuffers
    cases source
    simp_all
  | cons first rest =>
    have hindex := h.index_lt first rest hbuffers
    rw [content, hbuffers, drop_eq_nil_iff, flatten_cons, length_append] at hcontent
    omega

theorem Valid.skip (h : source.Valid) {n : Nat} (hpos : 0 < n) (hn : n ≤ source.peek.length) :
    ∃ source', source.skip n = .ok source' ∧ source'.Valid ∧ source'.content = source.content.drop n ∧
      source.content.take n = source.peek.take n := by
  have hpeek : source.peek ≠ [] := ne_nil_of_length_pos (by omega)
  have hcontent : source.content ≠ [] := by
    intro hnil
    rw [h.eq_nil hnil] at hpeek
    exact hpeek rfl
  obtain ⟨first, rest, hbuffers, hshown, hsplit⟩ := h.peek_eq hcontent
  have hlength : source.peek.length = first.length - source.indexIntoFirstBuffer := by
    rw [hshown, length_drop]
  have htake : source.content.take n = source.peek.take n := by
    rw [hsplit, take_append_of_le_length hn]
  rw [DetachedBufferSource.skip, if_neg (by omega), hbuffers]
  dsimp only
  rw [if_neg (by omega)]
  split
  · next heq =>
    refine ⟨_, rfl, ⟨?_, ?_, fun _ => rfl⟩, ?_, htake⟩
    · intro b hb
      exact h.ne_nil b (hbuffers ▸ mem_cons_of_mem first hb)
    · intro first' rest' hrest
      have hmem : first' ∈ source.buffers := by simp [hbuffers, show rest = first' :: rest' from hrest]
      exact length_pos_of_ne_nil (h.ne_nil first' hmem)
    · have hall : source.peek.length = n := by omega
      rw [content, hsplit, ← hall, drop_left]
      rfl
  · next hne =>
    refine ⟨_, rfl, ⟨?_, ?_, by simp⟩, ?_, htake⟩
    · intro b hb
      exact h.ne_nil b (hbuffers ▸ hb)
    · intro first' rest' hcons
      obtain ⟨rfl, -⟩ := cons.inj hcons
      show source.indexIntoFirstBuffer + n < first.length
      omega
    · rw [content, content, drop_drop, hbuffers]

end DetachedBufferSource

theorem Snappy.take_eq {source : DetachedBufferSource} (h : source.Valid) (taken : Bytes) :
    z.take source.content.length taken source = .ok (taken ++ source.content, ⟨[], 0⟩) := by
  induction hlength : source.content.length using Nat.strongRecOn generalizing source taken with
  | ind k ih =>
    rw [take]
    by_cases hk : k = 0
    · have hnil : source.content = [] := length_eq_zero_iff.mp (hlength.trans hk)
      rw [if_pos hk, hnil, append_nil, h.eq_nil hnil]
    · rw [if_neg hk]
      have hcontent : source.content ≠ [] := ne_nil_of_length_pos (by omega)
      obtain ⟨first, rest, hbuffers, hshown, hsplit⟩ := h.peek_eq hcontent
      have hshown : 0 < source.peek.length := by
        have hindex := h.index_lt first rest hbuffers
        rw [hshown, length_drop]
        omega
      obtain ⟨n, hn, hn_pos, hn_le, hn_k⟩ : ∃ n, n = min k (z.advance taken.length source.peek.length) ∧ 0 < n ∧
          n ≤ source.peek.length ∧ n ≤ k := by
        have hpos := z.advance_pos taken.length _ hshown
        have hle := z.advance_le taken.length source.peek.length
        exact ⟨_, rfl, by omega, by omega, by omega⟩
      obtain ⟨source', hskip, hvalid, hcontent', htake⟩ := h.skip hn_pos hn_le
      have hlength' : source'.content.length = k - n := by rw [hcontent', length_drop, hlength]
      rw [← hn, if_neg (by omega), hskip]
      dsimp only
      rw [ih (k - n) (by omega) hvalid _ hlength', hcontent', ← htake, append_assoc, take_append_drop]

def dataChunk (data : Bytes) : Bytes := chunk 0 (snappyChecksum data) (z.compress data)

def Fits (data : Bytes) : Prop := (z.compress data).length + 4 < 2 ^ 24

instance (data : Bytes) : Decidable (Fits z data) := inferInstanceAs (Decidable (_ < _))

def uncompressedChunks (chunkSize : Nat) : Bytes → List Bytes → List Bytes
  | gathered, [] => if gathered = [] then [] else [gathered]
  | gathered, buffer :: buffers =>
    if (gathered ++ buffer).length ≥ chunkSize then (gathered ++ buffer) :: uncompressedChunks chunkSize [] buffers
    else uncompressedChunks chunkSize (gathered ++ buffer) buffers

theorem flatten_uncompressedChunks (chunkSize : Nat) (gathered : Bytes) (buffers : List Bytes) :
    (uncompressedChunks chunkSize gathered buffers).flatten = gathered ++ buffers.flatten := by
  fun_induction uncompressedChunks chunkSize gathered buffers with
  | case1 | case2 => simp
  | case3 gathered buffer buffers hfull ih => rw [flatten_cons, ih, nil_append, append_assoc, flatten_cons]
  | case4 gathered buffer buffers hroom ih => rw [ih, append_assoc, flatten_cons]

namespace SnappyEncoder

structure Gathers (gathered : Bytes) (e : SnappyEncoder) : Prop where
  flatten_eq : e.bufferSource.buffers.flatten = gathered
  ne_nil : ∀ b ∈ e.bufferSource.buffers, b ≠ []
  index_eq : e.bufferSource.indexIntoFirstBuffer = 0
  checksum_eq : e.accumulatedChecksum = if gathered = [] then none else some (computeCrc32 gathered)

variable {z} {gathered : Bytes} {e : SnappyEncoder}

section

variable (h : Gathers gathered e)

include h

theorem Gathers.valid : e.bufferSource.Valid where
  ne_nil := h.ne_nil
  index_lt := by
    intro first rest hbuffers
    rw [h.index_eq]
    exact length_pos_of_ne_nil (h.ne_nil first (by simp [hbuffers]))
  index_nil := fun _ => h.index_eq

theorem Gathers.available_eq : e.bufferSource.available = gathered.length := by
  rw [DetachedBufferSource.available_eq, h.flatten_eq]

theorem Gathers.content_eq : e.bufferSource.content = gathered := by
  rw [DetachedBufferSource.content, h.flatten_eq, h.index_eq, drop_zero]

theorem Gathers.encodeCurrentBuffer (hne : gathered ≠ []) (hfits : Fits z gathered) :
    encodeCurrentBuffer z e = .ok { queue := e.queue ++ [dataChunk z gathered] } := by
  have hlength : gathered.length ≠ 0 := by simpa using hne
  have htake := z.take_eq h.valid []
  rw [h.content_eq, nil_append] at htake
  have hlt := z.length_compress_lt gathered
  rw [Fits] at hfits
  rw [SnappyEncoder.encodeCurrentBuffer, h.available_eq, if_neg hlength, h.checksum_eq, if_neg hne]
  simp only [htake, bind, Except.bind, pure, Except.pure]
  rw [if_neg (by omega), if_neg (by omega)]
  rfl

theorem Gathers.encode {buffer : Bytes} (hne : buffer ≠ []) (chunkSize : Nat)
    (hfits : (gathered ++ buffer).length ≥ chunkSize → Fits z (gathered ++ buffer)) :
    ∃ e', encode z chunkSize buffer e = .ok e' ∧
      if (gathered ++ buffer).length ≥ chunkSize then
        Gathers [] e' ∧ e'.queue = e.queue ++ [dataChunk z (gathered ++ buffer)]
      else Gathers (gathered ++ buffer) e' ∧ e'.queue = e.queue := by
  have hne' : gathered ++ buffer ≠ [] := by simp [hne]
  have happend : Gathers (gathered ++ buffer) { e with
      accumulatedChecksum := some (accumulateCrc32 buffer e.accumulatedChecksum)
      bufferSource := e.bufferSource.appendBuffer buffer } := by
    refine ⟨?_, ?_, h.index_eq, ?_⟩
    · simp [DetachedBufferSource.appendBuffer, h.flatten_eq]
    · exact forall_mem_append.mpr ⟨h.ne_nil, forall_mem_singleton.mpr hne⟩
    · rw [if_neg hne', h.checksum_eq]
      show some _ = some (accumulateCrc32 (gathered ++ buffer) none)
      rw [accumulateCrc32_append]
      split
      · next hnil => rw [hnil]; rfl
      · rfl
  rw [SnappyEncoder.encode]
  rw [happend.available_eq]
  split
  · next hfull =>
    refine ⟨_, happend.encodeCurrentBuffer hne' (hfits hfull), ⟨rfl, by simp, rfl, rfl⟩, rfl⟩
  · exact ⟨_, rfl, happend, rfl⟩

theorem Gathers.encodeAll {buffers : List Bytes} (hne : ∀ b ∈ buffers, b ≠ [])
    (chunkSize : Nat) (hfits : ∀ data ∈ uncompressedChunks chunkSize gathered buffers, Fits z data) :
    ∃ e', buffers.foldlM (fun e buffer => SnappyEncoder.encode z chunkSize buffer e) e >>= finish z = .ok e' ∧
      e'.queue.flatten =
        e.queue.flatten ++ (uncompressedChunks chunkSize gathered buffers).flatMap (dataChunk z) := by
  induction buffers generalizing gathered e with
  | nil =>
    rw [foldlM_nil, pure_bind, finish, uncompressedChunks]
    rw [uncompressedChunks] at hfits
    split
    · next hnil =>
      have havailable : e.bufferSource.available = 0 := by rw [h.available_eq, hnil]; rfl
      refine ⟨e, ?_, by simp⟩
      rw [SnappyEncoder.encodeCurrentBuffer, if_pos havailable]
      rfl
    · next hgathered =>
      rw [if_neg hgathered] at hfits
      refine ⟨_, h.encodeCurrentBuffer hgathered (hfits gathered (by simp)), ?_⟩
      simp
  | cons buffer buffers ih =>
    have hfull : (gathered ++ buffer).length ≥ chunkSize → Fits z (gathered ++ buffer) := by
      intro hfull
      rw [uncompressedChunks, if_pos hfull] at hfits
      exact hfits _ mem_cons_self
    have hrest : ∀ b ∈ buffers, b ≠ [] := fun b hb => hne b (mem_cons_of_mem buffer hb)
    obtain ⟨e1, hencode, he1⟩ := h.encode (hne buffer mem_cons_self) chunkSize hfull
    rw [foldlM_cons, hencode]
    rw [uncompressedChunks] at hfits ⊢
    split
    · next hsize =>
      rw [if_pos hsize] at hfits he1
      obtain ⟨e', he', hqueue⟩ := ih he1.1 hrest fun data hdata => hfits data (mem_cons_of_mem _ hdata)
      refine ⟨e', he', ?_⟩
      rw [hqueue, he1.2]
      simp
    · next hsize =>
      rw [if_neg hsize] at hfits he1
      obtain ⟨e', he', hqueue⟩ := ih he1.1 hrest hfits
      exact ⟨e', he', by rw [hqueue, he1.2]⟩

end

end SnappyEncoder

/-! ### Decoding -/

namespace SnappyDecoder

variable {z}

theorem readChunks_dataChunk {data : Bytes} (hfits : Fits z data) {room : Nat} (hroom : 0 < room)
    (output file : Bytes) :
    readChunks z room output (dataChunk z data ++ file) =
      if room > data.length then readChunks z (room - data.length) (output ++ data) file
      else .ok (output ++ data.take room, ⟨file, data.drop room⟩) := by
  rw [Fits] at hfits
  obtain ⟨l₀, l₁, l₂, hsplit⟩ : ∃ l₀ l₁ l₂, split 3 ((z.compress data).length + 4) = [l₀, l₁, l₂] :=
    ⟨_, _, _, rfl⟩
  have hsize : combine [l₀, l₁, l₂] = (z.compress data).length + 4 := by
    rw [← hsplit, combine_split, Nat.mod_eq_of_lt (by omega)]
  have hchecksum : combine (split 4 (snappyChecksum data).toNat) = (snappyChecksum data).toNat := by
    have hlt : (snappyChecksum data).toNat < 256 ^ 4 := UInt32.toNat_lt _
    rw [combine_split, Nat.mod_eq_of_lt hlt]
  have hbody : (split 4 (snappyChecksum data).toNat ++ z.compress data).length =
      (z.compress data).length + 4 := by
    rw [length_append, length_split]
    omega
  have hfile : dataChunk z data ++ file =
      0 :: l₀ :: l₁ :: l₂ :: (split 4 (snappyChecksum data).toNat ++ z.compress data ++ file) := by
    rw [dataChunk, chunk, hsplit]
    simp
  have htake : (split 4 (snappyChecksum data).toNat ++ z.compress data).take 4 =
      split 4 (snappyChecksum data).toNat := take_left' (length_split _ _)
  have hdrop : (split 4 (snappyChecksum data).toNat ++ z.compress data).drop 4 = z.compress data :=
    drop_left' (length_split _ _)
  rw [hfile, readChunks, if_neg (by omega)]
  dsimp only
  rw [hsize, take_left' hbody, drop_left' hbody, hbody, if_neg (by simp), if_neg (by decide),
    if_pos rfl, if_neg (by omega), htake, hdrop, z.getUncompressedLength_compress, z.rawUncompress_compress]
  dsimp only
  rw [hchecksum, if_neg (by simp)]

theorem readChunks_identifier {room : Nat} (hroom : 0 < room) (output file : Bytes) :
    readChunks z room output (snappyIdentifierChunk ++ file) = readChunks z room output file := by
  show readChunks z room output (0xff :: 0x06 :: 0x00 :: 0x00 :: ([0x73, 0x4e, 0x61, 0x50, 0x70, 0x59] ++ file)) = _
  rw [readChunks, if_neg (by omega)]
  rfl

theorem readChunks_eq {chunks : List Bytes} (hfits : ∀ data ∈ chunks, Fits z data) (room : Nat) (output : Bytes) :
    ∃ (chunks' : List Bytes) (buffer : Bytes), readChunks z room output (chunks.flatMap (dataChunk z)) =
        .ok (output ++ chunks.flatten.take room, ⟨chunks'.flatMap (dataChunk z), buffer⟩) ∧
      buffer ++ chunks'.flatten = chunks.flatten.drop room ∧ ∀ data ∈ chunks', Fits z data := by
  induction chunks generalizing room output with
  | nil =>
    refine ⟨[], [], ?_, by simp, by simp⟩
    rw [readChunks.eq_def]
    simp
  | cons data chunks ih =>
    have hrest : ∀ data ∈ chunks, Fits z data := fun d hd => hfits d (mem_cons_of_mem data hd)
    by_cases hroom : room = 0
    · refine ⟨data :: chunks, [], ?_, by simp [hroom], hfits⟩
      rw [readChunks.eq_def, if_pos hroom, hroom, take_zero, append_nil]
    · rw [flatMap_cons, readChunks_dataChunk (hfits data mem_cons_self) (Nat.pos_of_ne_zero hroom)]
      split
      · next hlt =>
        obtain ⟨chunks', buffer, hread, hbuffer, hfits'⟩ := ih hrest (room - data.length) (output ++ data)
        have htake : data.take room = data := take_of_length_le hlt.le
        have hdrop : data.drop room = [] := drop_of_length_le hlt.le
        refine ⟨chunks', buffer, ?_, ?_, hfits'⟩
        · rw [hread, flatten_cons, take_append, htake, append_assoc]
        · rw [hbuffer, flatten_cons, drop_append, hdrop, nil_append]
      · next hle =>
        refine ⟨chunks, data.drop room, ?_, ?_, hrest⟩
        · rw [flatten_cons, take_append_of_le_length (by omega)]
        · rw [flatten_cons, drop_append_of_le_length (by omega)]

/-- The decoder has still to return `content`. -/
def Holds (z : Snappy) (content : Bytes) (d : SnappyDecoder) : Prop :=
  ∃ chunks : List Bytes, (∀ data ∈ chunks, Fits z data) ∧ content = d.uncompressedBuffer ++ chunks.flatten ∧
    (d.file = chunks.flatMap (dataChunk z) ∨ d.file = snappyIdentifierChunk ++ chunks.flatMap (dataChunk z))

theorem Holds.read {content : Bytes} {d : SnappyDecoder} (h : Holds z content d) (n : Nat) :
    ∃ d', read z n d = .ok (content.take n, d') ∧ Holds z (content.drop n) d' := by
  obtain ⟨chunks, hfits, rfl, hfile⟩ := h
  rw [SnappyDecoder.read]
  by_cases hbuffer : d.uncompressedBuffer.drop n = []
  · have hle : d.uncompressedBuffer.length ≤ n := drop_eq_nil_iff.mp hbuffer
    rw [if_pos hbuffer, take_of_length_le hle, take_append, take_of_length_le hle, drop_append,
      hbuffer, nil_append]
    by_cases hroom : n - d.uncompressedBuffer.length = 0
    · refine ⟨⟨d.file, []⟩, ?_, chunks, hfits, by rw [hroom]; rfl, hfile⟩
      rw [readChunks.eq_def, if_pos hroom, hroom, take_zero, append_nil]
    · obtain ⟨chunks', buffer, hread, hdrop, hfits'⟩ := readChunks_eq hfits (n - d.uncompressedBuffer.length)
        d.uncompressedBuffer
      refine ⟨⟨chunks'.flatMap (dataChunk z), buffer⟩, ?_, chunks', hfits', hdrop.symm, .inl rfl⟩
      obtain hfile | hfile := hfile
      · rw [hfile, hread]
      · rw [hfile, readChunks_identifier (Nat.pos_of_ne_zero hroom), hread]
  · have hlt : n < d.uncompressedBuffer.length := by
      rw [drop_eq_nil_iff] at hbuffer
      omega
    rw [if_neg hbuffer, take_append_of_le_length hlt.le, drop_append_of_le_length hlt.le]
    exact ⟨_, rfl, chunks, hfits, rfl, hfile⟩

/-- The pieces of some data that fill ranges of these sizes. -/
def ranges (content : Bytes) : List Nat → List Bytes
  | [] => []
  | n :: ns => content.take n :: ranges (content.drop n) ns

theorem flatten_ranges (content : Bytes) (ns : List Nat) : (ranges content ns).flatten = content.take ns.sum := by
  induction ns generalizing content with
  | nil => rfl
  | cons n ns ih => rw [ranges, flatten_cons, ih, sum_cons, take_add]

theorem Holds.reads {content : Bytes} {d : SnappyDecoder} (h : Holds z content d) (ns : List Nat) :
    reads z d ns = .ok (ranges content ns) := by
  induction ns generalizing content d with
  | nil => rfl
  | cons n ns ih =>
    obtain ⟨d', hread, hd'⟩ := h.read n
    simp only [SnappyDecoder.reads, hread, ih hd', ranges, bind, Except.bind, pure, Except.pure]

end SnappyDecoder

/-- Whatever the sizes of chunks and ranges, reading returns the data of the buffers one after another, each `Read` as much as
was asked for until the data ends. No check fails. -/
theorem snappy_round_trip (chunkSize : Nat) (buffers : List Bytes) (hne : ∀ b ∈ buffers, b ≠ [])
    (hfits : ∀ data ∈ uncompressedChunks chunkSize [] buffers, Fits z data) :
    ∃ file, SnappyEncoder.encodeAll z chunkSize buffers = .ok file ∧
      ∀ ns, SnappyDecoder.reads z ⟨file, []⟩ ns = .ok (SnappyDecoder.ranges buffers.flatten ns) ∧
        (SnappyDecoder.ranges buffers.flatten ns).flatten = buffers.flatten.take ns.sum := by
  have hstart : SnappyEncoder.Gathers [] {} := ⟨rfl, by simp, rfl, rfl⟩
  obtain ⟨e, he, hqueue⟩ := hstart.encodeAll hne chunkSize hfits
  refine ⟨e.queue.flatten, ?_, ?_⟩
  · obtain ⟨e1, he1, hfinish⟩ := Fallible.bind_eq_ok.mp he
    simp only [SnappyEncoder.encodeAll, he1, hfinish, bind, Except.bind, pure, Except.pure]
  · intro ns
    refine ⟨?_, SnappyDecoder.flatten_ranges _ _⟩
    apply SnappyDecoder.Holds.reads
    refine ⟨_, hfits, ?_, .inr ?_⟩
    · rw [flatten_uncompressedChunks]
      rfl
    · rw [hqueue]
      simp

def storing : Snappy where
  compress := id
  advance := fun _ length => min 2 length
  advance_pos := by omega
  advance_le := by omega
  maxCompressedLength := fun length => length + 1
  length_compress_lt := fun data => Nat.lt_succ_self data.length
  getUncompressedLength := fun data => some data.length
  getUncompressedLength_compress := fun _ => rfl
  rawUncompress := some
  rawUncompress_compress := fun _ => rfl

theorem snappy_round_trip_storing :
    ∃ file, SnappyEncoder.encodeAll storing 3 [[1, 2], [3], [4, 5, 6, 7, 8], [9]] = .ok file ∧
      SnappyDecoder.reads storing ⟨file, []⟩ [4, 0, 1, 9, 2] = .ok [[1, 2, 3, 4], [], [5], [6, 7, 8, 9], []] := by
  obtain ⟨file, hencode, hreads⟩ := snappy_round_trip storing 3 [[1, 2], [3], [4, 5, 6, 7, 8], [9]] (by decide)
    (by decide)
  exact ⟨file, hencode, (hreads [4, 0, 1, 9, 2]).1⟩

end RobotCode.Logging
