import RobotCode.Flatbuffers.Builder
import RobotCode.Json.Tokenizer

/-!
# The JSON parser

`JsonParser` of `aos/json_to_flatbuffer.cc`. The parser keeps a stack of open objects. Values are
collected as they come, untyped, and matched with the schema when the object ends, in `writeTable`,
or when the array ends, in `finishVector`. A value that does not fit its field is dropped when the
object ends, since `WriteTable` does not look at what `AddSingleElement` returns, and so is a second
value of one field.

Conversions to floating point numbers are those of the C library and come as `FloatOps`. A floating
point number is its bit pattern.
-/

namespace RobotCode.Json

open Flatbuffers

open ElementaryType

/-- Conversions to `double` and `float`. -/
structure FloatOps where
  fieldAsDouble : List Char → Option Int
  intToFloat : Int → Int
  intToDouble : Int → Int
  doubleToFloat : Int → Int
  intToFloat_inRange : ∀ x, float.InRange (intToFloat x)
  intToDouble_inRange : ∀ x, double.InRange (intToDouble x)
  doubleToFloat_inRange : ∀ x, float.InRange (doubleToFloat x)
  fieldAsDouble_inRange : ∀ text x, fieldAsDouble text = some x → double.InRange x

/-- `c_str()`, which ends at the first zero. -/
def cStr (s : List Char) : List Char := s.takeWhile (· ≠ Char.ofNat 0)

section

variable (S : Schema)

def fieldIndex (k : Nat) (name : List Char) : Option Nat :=
  (S.typeTable k).names.findIdx? (· == name)

def fieldElementaryType (k i : Nat) : ElementaryType :=
  ((S.typeCode k i).map TypeCode.baseType).getD .utype

def fieldIsRepeating (k i : Nat) : Bool :=
  ((S.typeCode k i).map TypeCode.isRepeating).getD false

def fieldIsSequence (k i : Nat) : Bool := fieldElementaryType S k i == .sequence

def fieldType (k i : Nat) : Nat := ((S.typeCode k i).map TypeCode.typeRef).getD 0

def fieldIsEnum (k i : Nat) : Bool :=
  fieldElementaryType S k i != .sequence &&
    ((S.typeCode k i).map fun code => code.sequenceRef.isSome).getD false

def isEnum (k : Nat) : Bool := (S.typeTable k).st == .enum

def enumValue (k : Nat) (name : List Char) : Option Int :=
  (fieldIndex S k name).map fun i =>
    match (S.typeTable k).values with
    | some values => values.getD i 0
    | none => i

end

/-- `Element`. -/
inductive Element where
  | int (value : Int)
  | double (bits : Int)
  | offset (offset : Offset)

/-- The number in a signed type of `w` bits. -/
def wrapSigned (w : Nat) (x : Int) : Int := (x + 2 ^ (w - 1)) % 2 ^ w - 2 ^ (w - 1)

section

variable (F : FloatOps) (S : Schema)

/-- The integer converted to a scalar type, as in `AddElement<T>` and `PushElement<T>`. -/
def intScalar : ElementaryType → Int → Option Value
  | .bool, x => some (.scalar .bool (if x = 0 then 0 else 1))
  | .char, x => some (.scalar .char (wrapSigned 8 x))
  | .uchar, x => some (.scalar .uchar (x % 2 ^ 8))
  | .short, x => some (.scalar .short (wrapSigned 16 x))
  | .ushort, x => some (.scalar .ushort (x % 2 ^ 16))
  | .int, x => some (.scalar .int (wrapSigned 32 x))
  | .uint, x => some (.scalar .uint (x % 2 ^ 32))
  | .long, x => some (.scalar .long (wrapSigned 64 x))
  | .ulong, x => some (.scalar .ulong (x % 2 ^ 64))
  | .float, x => some (.scalar .float (F.intToFloat x))
  | .double, x => some (.scalar .double (F.intToDouble x))
  | .string, _ => none
  | .utype, _ => none
  | .sequence, _ => none

def doubleScalar : ElementaryType → Int → Option Value
  | .float, x => some (.scalar .float (F.doubleToFloat x))
  | .double, x => some (.scalar .double x)
  | _, _ => none

def isOffsetType : ElementaryType → Bool
  | .string | .sequence => true
  | _ => false

/-- `AddSingleElement` for a field that is not in use, which leaves out what does not fit. -/
def addSingleElement (k i : Nat) (e : Element) (fbb : Builder) : Builder :=
  match e with
  | .int x =>
    match intScalar F (fieldElementaryType S k i) x with
    | some v => fbb.addElement i v
    | none => fbb
  | .double x =>
    match doubleScalar F (fieldElementaryType S k i) x with
    | some v => fbb.addElement i v
    | none => fbb
  | .offset o =>
    -- a vector is always an offset
    if fieldIsRepeating S k i || isOffsetType (fieldElementaryType S k i) then fbb.addOffset i o
    else fbb

/-- The loop of `WriteTable`, with `fields_in_use`. -/
def addElements (S : Schema) (k : Nat) : List (Nat × Element) → List Nat → Builder → Builder
  | [], _, fbb => fbb
  | (i, e) :: elements, inUse, fbb =>
    if i ∈ inUse then addElements S k elements inUse fbb
    else addElements S k elements (i :: inUse) (addSingleElement F S k i e fbb)

def writeTable (k : Nat) (elements : List (Nat × Element)) (fbb : Builder) :
    Offset × Builder :=
  (addElements F S k elements [] fbb.startTable).endTable (S.typeTable k).numElems

def pushElement (type : ElementaryType) (fbb : Builder) (e : Element) : Option Builder :=
  match e with
  | .int x => (intScalar F type x).map fun v => fbb.pushElement (.scalar v)
  | .double x => (doubleScalar F type x).map fun v => fbb.pushElement (.scalar v)
  | .offset o => if isOffsetType type then some (fbb.pushElement (.offset o)) else none

/-- `FlatBufferContext`. -/
structure Context where
  type : Nat
  inVector : Bool
  fieldIndex : Option Nat
  elements : List (Nat × Element)
  vectorElements : List Element

def Context.new (type : Nat) : Context := ⟨type, false, none, [], []⟩

structure Parser where
  fbb : Builder
  /-- The open objects, the innermost first. -/
  stack : List Context
  tableEnd : Offset

variable (p : Parser)

def Context.add (c : Context) (i : Nat) (e : Element) : Context :=
  if c.inVector then { c with vectorElements := c.vectorElements ++ [e] }
  else { c with elements := c.elements ++ [(i, e)] }

/-- `AddElement` of a number. -/
def addNumber (e : Element) : Option Parser :=
  match p.stack with
  | [] => none
  | c :: rest => do
    let i ← c.fieldIndex
    if fieldIsRepeating S c.type i = c.inVector then
      some { p with stack := c.add i e :: rest }
    else none

/-- The integer types, for which `AddElement` looks for an enumeration. -/
def isIntegerType : ElementaryType → Bool
  | .char | .uchar | .short | .ushort | .int | .uint | .long | .ulong => true
  | _ => false

def stringElement (k i : Nat) (s : List Char) (fbb : Builder) :
    Option (Element × Builder) :=
  if isIntegerType (fieldElementaryType S k i) && fieldIsEnum S k i then
    -- `CHECK(enum_type.IsEnum())`
    if isEnum S (fieldType S k i) then
      (enumValue S (fieldType S k i) s).map fun x => (.int x, fbb)
    else none
  else
    let r := fbb.createString s
    some (.offset r.1, r.2)

/-- `AddElement` of a string. -/
def addString (s : List Char) : Option Parser :=
  match p.stack with
  | [] => none
  | c :: rest => do
    let i ← c.fieldIndex
    if fieldIsRepeating S c.type i = c.inVector then
      let (e, fbb) ← stringElement S c.type i s p.fbb
      some { p with fbb := fbb, stack := c.add i e :: rest }
    else none

/-- `FinishVector`: the elements are pushed from the last to the first. -/
def finishVector (c : Context) (i : Nat) (fbb : Builder) : Option (Context × Builder) := do
  let type := fieldElementaryType S c.type i
  let fbb ← c.vectorElements.reverse.foldlM (pushElement F type) fbb.startVector
  let r := fbb.endVector c.vectorElements.length
  some ({ c with elements := c.elements ++ [(i, .offset r.1)], vectorElements := [] }, r.2)

def digitsValue (digits : List Char) : Nat :=
  digits.foldl (fun n c => 10 * n + (c.toNat - '0'.toNat)) 0

/-- `FieldAsInt`: all of the text is an integer that `strtoll` can represent. -/
def fieldAsInt (text : List Char) : Option Int :=
  let negative := text.head? = some '-'
  let digits := if negative then text.tail else text
  let value : Int := if negative then -digitsValue digits else digitsValue digits
  if digits ≠ [] ∧ digits.all isDigit ∧ long.InRange value then some value else none

def numberElement (text : List Char) : Option Element :=
  match fieldAsInt text with
  | some x => some (.int x)
  | none => (F.fieldAsDouble text).map .double

/-- `kStartObject`. -/
def startObject (root : Nat) (p : Parser) : Option Parser :=
  match p.stack with
  | [] => some { p with stack := [Context.new root] }
  | c :: rest => do
    let i ← c.fieldIndex
    if fieldIsSequence S c.type i then
      some { p with stack := Context.new (fieldType S c.type i) :: c :: rest }
    else none

/-- `kEndObject`. -/
def endObject : Option Parser :=
  match p.stack with
  | [] => none
  | c :: rest =>
    let r := writeTable F S c.type c.elements p.fbb
    match rest with
    | [] => some { p with fbb := r.2, stack := [], tableEnd := r.1 }
    | parent :: outer => do
      let i ← parent.fieldIndex
      some { p with fbb := r.2, stack := parent.add i (.offset r.1) :: outer }

/-- `kStartArray`. -/
def startArray : Option Parser :=
  match p.stack with
  | [] => none
  | c :: rest =>
    if c.inVector then none else some { p with stack := { c with inVector := true } :: rest }

/-- `kEndArray`. -/
def endArray : Option Parser :=
  match p.stack with
  | [] => none
  | c :: rest =>
    if c.inVector then do
      let i ← c.fieldIndex
      let (c, fbb) ← finishVector F S c i p.fbb
      some { p with fbb := fbb, stack := { c with inVector := false } :: rest }
    else none

/-- `kField`. -/
def setField (name : List Char) : Option Parser :=
  match p.stack with
  | [] => none
  | c :: rest => do
    let i ← fieldIndex S c.type (cStr name)
    some { p with stack := { c with fieldIndex := some i } :: rest }

/-- One round of the main loop of `DoParse`. -/
def parseStep (S : Schema) (root : Nat) (p : Parser) : Token → Option Parser
  | .startObject => startObject S root p
  | .endObject => endObject F S p
  | .startArray => startArray p
  | .endArray => endArray F S p
  | .true => addNumber S p (.int 1)
  | .false => addNumber S p (.int 0)
  | .number text => do addNumber S p (← numberElement F text)
  | .string text => addString S p text
  | .field name => setField S p name
  | .done => none

end

/-- A loop over the tokens up to the last one: `step` for each of them and `finish` at the end. -/
def runTokens {σ α : Type} (step : σ → Token → Option σ) (finish : σ → Option α) : Nat → Tokenizer → σ → Option α
  | 0, _, _ => none
  | n + 1, t, s =>
    match t.next with
    | none => none
    | some (.done, _) => finish s
    | some (token, t) => (step s token).bind (runTokens step finish n t)

def tokenBound (data : List Char) : Nat := 2 * data.length + 1

/-- `JsonToFlatbuffer(data, type)`: the table in the buffer, or nothing for an empty buffer. -/
def jsonToFlatbuffer (F : FloatOps) (S : Schema) (root : Nat) (data : List Char) : Option Value :=
  runTokens (parseStep F S root)
    (fun p => if p.stack = [] then p.fbb.read p.tableEnd else none)
    (tokenBound data) (Tokenizer.new data) ⟨.new, [], 0⟩

end RobotCode.Json
