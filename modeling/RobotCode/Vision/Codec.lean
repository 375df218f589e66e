import RobotCode.Lib.LittleEndian

/-!
# The codec of blobs

`CalculateSize`, `SerializeBlob` and `ParseBlobList` of `aos/vision/blob/codec.cc`. A pointer that is written through is
the bytes written so far, and a pointer that is read through is the bytes from there on. Each of the three functions is
a nest of loops over blobs, rows and ranges, and what the rows of one write is what the rows of another read.
-/

namespace RobotCode.Vision

open List LittleEndian

structure ImageRange where
  st : Int
  ed : Int
  deriving DecidableEq, Repr

structure RangeImage where
  minY : Int
  ranges : List (List ImageRange)
  deriving DecidableEq, Repr

/-- The bytes of `static_cast<uint16_t>(ival)`. -/
def int16Bytes (ival : Int) : List UInt8 := split 2 (ival % 2 ^ 16).toNat

def countRow (count : Nat) (row : List ImageRange) : Nat := count + (2 + 2 * 2 * row.length)

def countBlob (count : Nat) (blob : RangeImage) : Nat := blob.ranges.foldl countRow (count + 2 * 2)

def calculateSize (blobList : List RangeImage) : Nat := blobList.foldl countBlob 2

/-- `Int16Codec::Write`. -/
def write (data : List UInt8) (ival : Int) : List UInt8 := data ++ int16Bytes ival

def writeRow (data : List UInt8) (row : List ImageRange) : List UInt8 :=
  row.foldl (fun data range => write (write data range.st) range.ed) (write data row.length)

def writeBlob (data : List UInt8) (blob : RangeImage) : List UInt8 :=
  blob.ranges.foldl writeRow (write (write data blob.minY) blob.ranges.length)

def serializeBlob (blobList : List RangeImage) : List UInt8 := blobList.foldl writeBlob (write [] blobList.length)

/-- `Int16Codec::Read`. There is nothing to read behind the data. -/
def read (data : List UInt8) : Option (Int × List UInt8) :=
  if data.length < 2 then none else some (combine (data.take 2), data.drop 2)

section

variable {α : Type} (item : List UInt8 → Option (α × List UInt8))

/-- A loop that reads `count` items. -/
def readMany : Nat → List UInt8 → Option (List α × List UInt8)
  | 0, data => some ([], data)
  | count + 1, data => do
    let (a, data) ← item data
    let (rest, data) ← readMany count data
    some (a :: rest, data)

/-- A count, and as many items. -/
def readCounted (data : List UInt8) : Option (List α × List UInt8) := do
  let (count, data) ← read data
  readMany item count.toNat data

end

def parseRange (data : List UInt8) : Option (ImageRange × List UInt8) := do
  let (st, data) ← read data
  let (ed, data) ← read data
  some (⟨st, ed⟩, data)

def parseBlob (data : List UInt8) : Option (RangeImage × List UInt8) := do
  let (minY, data) ← read data
  let (ranges, data) ← readCounted (readCounted parseRange) data
  some (⟨minY, ranges⟩, data)

def parseBlobList : List UInt8 → Option (List RangeImage × List UInt8) := readCounted parseBlob

/-- A number that an `uint16_t` can hold. -/
def Is16Bit (x : Int) : Prop := 0 ≤ x ∧ x ≤ 65535

instance (x : Int) : Decidable (Is16Bit x) := inferInstanceAs (Decidable (_ ∧ _))

/-- Every coordinate and every count. -/
def Encodable (blobList : List RangeImage) : Prop :=
  Is16Bit blobList.length ∧ ∀ blob ∈ blobList, Is16Bit blob.minY ∧ Is16Bit blob.ranges.length ∧
    ∀ row ∈ blob.ranges, Is16Bit row.length ∧ ∀ range ∈ row, Is16Bit range.st ∧ Is16Bit range.ed

instance (blobList : List RangeImage) : Decidable (Encodable blobList) := by
  unfold Encodable
  infer_instance

/-! ### What is written -/

section

variable {α : Type} {bytes : α → List UInt8} {l : List α}

def countedBytes (bytes : α → List UInt8) (l : List α) : List UInt8 := int16Bytes l.length ++ l.flatMap bytes

theorem foldl_write {step : List UInt8 → α → List UInt8} (hstep : ∀ data a, step data a = data ++ bytes a)
    (data : List UInt8) : l.foldl step (write data l.length) = data ++ countedBytes bytes l := by
  have hfold : ∀ data, l.foldl step data = data ++ l.flatMap bytes := by
    intro data
    simp only [funext₂ hstep, foldl_append_eq_append, flatMap_def]
  rw [hfold, write, countedBytes, append_assoc]

end

def rangeBytes (range : ImageRange) : List UInt8 := int16Bytes range.st ++ int16Bytes range.ed

def blobBytes (blob : RangeImage) : List UInt8 :=
  int16Bytes blob.minY ++ countedBytes (countedBytes rangeBytes) blob.ranges

theorem writeRow_eq (data : List UInt8) (row : List ImageRange) : writeRow data row = data ++ countedBytes rangeBytes row := by
  apply foldl_write
  intro data range
  rw [write, write, rangeBytes, append_assoc]

theorem serializeBlob_eq (blobList : List RangeImage) : serializeBlob blobList = countedBytes blobBytes blobList := by
  apply foldl_write
  intro data blob
  rw [writeBlob, foldl_write writeRow_eq, write, blobBytes, append_assoc]

theorem length_write (data : List UInt8) (ival : Int) : (write data ival).length = data.length + 2 := by
  rw [write, length_append, int16Bytes, length_split]

theorem length_writeRow (data : List UInt8) (row : List ImageRange) :
    countRow data.length row = (writeRow data row).length := by
  have hranges : (row.flatMap rangeBytes).length = 2 * 2 * row.length := by
    simp [length_flatMap, rangeBytes, int16Bytes, Nat.mul_comm]
  rw [writeRow_eq, countedBytes, length_append, length_append, hranges, int16Bytes, length_split, countRow]

theorem length_writeBlob (data : List UInt8) (blob : RangeImage) :
    countBlob data.length blob = (writeBlob data blob).length := by
  rw [writeBlob, ← foldl_hom length length_writeRow, length_write, length_write, countBlob]

theorem length_serializeBlob (blobList : List RangeImage) :
    (serializeBlob blobList).length = calculateSize blobList := by
  rw [serializeBlob, ← foldl_hom length length_writeBlob, length_write, calculateSize, length_nil]

/-! ### What is read -/

theorem read_int16Bytes {x : Int} (hx : Is16Bit x) (rest : List UInt8) : read (int16Bytes x ++ rest) = some (x, rest) := by
  have hlength : (int16Bytes x).length = 2 := length_split 2 _
  rw [read, if_neg (by rw [length_append]; omega), take_left' hlength, drop_left' hlength, int16Bytes, combine_split]
  obtain ⟨h0, h1⟩ := hx
  congr 2
  omega

section

variable {α : Type} {bytes : α → List UInt8} {item : List UInt8 → Option (α × List UInt8)} {l : List α}

theorem readMany_flatMap (hitem : ∀ a ∈ l, ∀ rest, item (bytes a ++ rest) = some (a, rest)) (rest : List UInt8) :
    readMany item l.length (l.flatMap bytes ++ rest) = some (l, rest) := by
  induction l with
  | nil => rfl
  | cons a l ih =>
    obtain ⟨ha, hl⟩ := forall_mem_cons.mp hitem
    simp [readMany, ha, ih hl]

theorem readCounted_countedBytes (hlength : Is16Bit l.length)
    (hitem : ∀ a ∈ l, ∀ rest, item (bytes a ++ rest) = some (a, rest)) (rest : List UInt8) :
    readCounted item (countedBytes bytes l ++ rest) = some (l, rest) := by
  rw [readCounted, countedBytes, append_assoc, read_int16Bytes hlength]
  exact readMany_flatMap hitem rest

end

/-- The list comes back, whatever follows its bytes. -/
theorem parseBlobList_serializeBlob (blobList : List RangeImage) (rest : List UInt8) (h : Encodable blobList) :
    (serializeBlob blobList).length = calculateSize blobList ∧
      parseBlobList (serializeBlob blobList ++ rest) = some (blobList, rest) := by
  refine ⟨length_serializeBlob blobList, ?_⟩
  rw [serializeBlob_eq]
  apply readCounted_countedBytes h.1
  intro blob hblob rest
  obtain ⟨hy, hlength, hrows⟩ := h.2 blob hblob
  have hread : ∀ row ∈ blob.ranges, ∀ rest,
      readCounted parseRange (countedBytes rangeBytes row ++ rest) = some (row, rest) := by
    intro row hrow rest
    obtain ⟨hcount, hranges⟩ := hrows row hrow
    apply readCounted_countedBytes hcount
    intro range hrange rest
    obtain ⟨hst, hed⟩ := hranges range hrange
    simp [parseRange, rangeBytes, read_int16Bytes hst, read_int16Bytes hed]
  simp [parseBlob, blobBytes, read_int16Bytes hy, readCounted_countedBytes hlength hread]

/-- An empty list, a blob without rows, and one with an empty row. -/
theorem parseBlobList_serializeBlob_shapes :
    parseBlobList (serializeBlob [] ++ [7]) = some ([], [7]) ∧
      parseBlobList (serializeBlob [⟨3, []⟩, ⟨65535, [[], [⟨0, 256⟩, ⟨300, 65535⟩]]⟩] ++ [7]) =
        some ([⟨3, []⟩, ⟨65535, [[], [⟨0, 256⟩, ⟨300, 65535⟩]]⟩], [7]) :=
  ⟨(parseBlobList_serializeBlob _ _ (by decide)).2, (parseBlobList_serializeBlob _ _ (by decide)).2⟩

end RobotCode.Vision
