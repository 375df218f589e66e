import RobotCode.Json.Document

/-!
# The JSON printer

`FlatbufferToJson` of `aos/flatbuffer_introspection.cc`. `FieldToString` goes by the base type that
the schema gives a field; for a table of the schema this is the case of the value, so the functions
here go by the value. The fields of an object come in the order of `reflection::Object::fields()`,
which is sorted by name.

A string field is escaped. A string in a vector is not: it is appended as `GetAnyVectorElemS` gives
it, which ends at the first zero.

Formatting floating point numbers is left to `floatToString`.
-/

namespace RobotCode.Json

open Flatbuffers

structure JsonOptions where
  multiLine : Bool := false
  maxVectorSize : Nat := 2 ^ 64 - 1

def appendInt : Int → List Char
  | .ofNat n => Nat.toDigits 10 n
  | .negSucc n => '-' :: Nat.toDigits 10 (n + 1)

def appendBool (b : Bool) : List Char :=
  if b then ['t', 'r', 'u', 'e'] else ['f', 'a', 'l', 's', 'e']

def null : List Char := ['n', 'u', 'l', 'l']

/-- `GetAnyValueI`: the scalar as an `int64_t`. -/
def getAnyValueI (x : Int) : Int := wrapSigned 64 x

def intToString : ElementaryType → Int → List Char
  | .bool, val => appendBool (val != 0)
  | .uchar, val => appendInt (val % 2 ^ 8)
  | .char, val => appendInt (wrapSigned 8 val)
  | .short, val => appendInt (wrapSigned 16 val)
  | .ushort, val => appendInt (val % 2 ^ 16)
  | .int, val => appendInt (wrapSigned 32 val)
  | .uint, val => appendInt (val % 2 ^ 32)
  | .long, val => appendInt (wrapSigned 64 val)
  | .ulong, val => appendInt (val % 2 ^ 64)
  | _, _ => null

/-- `EnumToString`: the name of the value, when there is one. -/
def enumToString (S : Schema) (k : Nat) (val : Int) : Option (List Char) :=
  match (S.typeTable k).values with
  | some values => (values.findIdx? (· == val)).bind fun i => (S.typeTable k).names[i]?
  | none => if 0 ≤ val then (S.typeTable k).names[val.toNat]? else none

def quoted (text : List Char) : List Char := '"' :: (text ++ ['"'])

def intOrEnumToString (S : Schema) (code : TypeCode) (val : Int) : List Char :=
  match code.sequenceRef with
  | some k =>
    if isEnum S k then
      match enumToString S k val with
      | some name => quoted name
      | none => appendInt val
    else intToString code.baseType val
  | none => intToString code.baseType val

/-- A character of a string field. -/
def escape : Char → List Char
  | '"' => ['\\', '"']
  | '\\' => ['\\', '\\']
  | '\x08' => ['\\', 'b']
  | '\x0c' => ['\\', 'f']
  | '\n' => ['\\', 'n']
  | '\r' => ['\\', 'r']
  | '\t' => ['\\', 't']
  | c => [c]

def addWrapping (treeDepth : Nat) : List Char :=
  '\n' :: (List.replicate treeDepth [' ', ' ']).flatten

def wrapping (wrap : Bool) (treeDepth : Nat) : List Char :=
  if wrap then addWrapping treeDepth else []

def separator (wrap : Bool) : List Char := if wrap then [','] else [',', ' ']

/-- The fields of an object or the elements of a vector, one after another. -/
def joined (wrap : Bool) (treeDepth : Nat) : List (List Char) → List Char
  | [] => []
  | [text] => wrapping wrap treeDepth ++ text
  | text :: texts => wrapping wrap treeDepth ++ text ++ (separator wrap ++ joined wrap treeDepth texts)

def shouldCauseWrapping (code : TypeCode) : Bool := code.isRepeating || code.baseType == .sequence

section

variable (S : Schema)

def fieldName (k i : Nat) : List Char := (S.typeTable k).names.getD i []

/-- `obj->fields()`, which is sorted by name. -/
def fieldsByName (k : Nat) : List Nat :=
  (List.range (S.typeTable k).numElems).insertionSort fun i j => fieldName S k i ≤ fieldName S k j

def inNameOrder {α : Type} (k : Nat) (slots : List (Option α)) : List (List Char × α) :=
  (fieldsByName S k).filterMap fun i => slots[i]?.join.map fun x => (fieldName S k i, x)

def namedField (name text : List Char) : List Char := quoted name ++ (':' :: ' ' :: text)

variable (o : JsonOptions)

/-- `ObjectToString`, with the texts of the fields. -/
def objectText (treeDepth k : Nat) (texts : List (Option (List Char))) : List Char :=
  let wrap := o.multiLine && (S.typeTable k).typeCodes.any shouldCauseWrapping
  '{' :: (joined wrap (treeDepth + 1) ((inNameOrder S k texts).map fun f => namedField f.1 f.2)
    ++ (wrapping wrap treeDepth ++ ['}']))

def vectorText (treeDepth : Nat) (code : TypeCode) (texts : List (List Char)) : List Char :=
  let wrap := o.multiLine && code.baseType == .sequence
  '[' :: (joined wrap (treeDepth + 1) texts ++ (wrapping wrap treeDepth ++ [']']))

/-- What is printed of a vector above the limit. -/
def skippedText (size : Nat) : List Char :=
  ['[', ' ', '"', '.', '.', '.', ' '] ++ appendInt size
    ++ [' ', 'e', 'l', 'e', 'm', 'e', 'n', 't', 's', ' ', '.', '.', '.', '"', ' ', ']']

def objectIndex (code : TypeCode) : Option Nat :=
  code.sequenceRef.filter fun k => decide (k < S.length)

variable (floatToString : ElementaryType → Int → List Char)

def scalarToString (code : TypeCode) (x : Int) : List Char :=
  match code.baseType with
  | .float | .double => floatToString code.baseType x
  | _ => intOrEnumToString S code (getAnyValueI x)

mutual

def fieldToString (treeDepth : Nat) (code : TypeCode) : Value → List Char
  | .scalar _ x => scalarToString S floatToString code x
  | .string data => quoted (data.flatMap escape)
  | .vector elements =>
    if elements.length > o.maxVectorSize then skippedText elements.length
    else vectorText o treeDepth code (elementTexts (treeDepth + 1) code elements)
  | .table slots =>
    match objectIndex S code with
    | some k =>
      objectText S o treeDepth k (slotTexts (treeDepth + 1) (S.typeTable k).typeCodes slots)
    | none => null

def elementToString (treeDepth : Nat) (code : TypeCode) : Value → List Char
  | .scalar _ x => scalarToString S floatToString code x
  | .string data => quoted (cStr data)
  | .vector _ => []
  | .table slots =>
    match objectIndex S code with
    | some k =>
      objectText S o treeDepth k (slotTexts (treeDepth + 1) (S.typeTable k).typeCodes slots)
    | none => []

def elementTexts (treeDepth : Nat) (code : TypeCode) : List Value → List (List Char)
  | [] => []
  | v :: elements => elementToString treeDepth code v :: elementTexts treeDepth code elements

def slotTexts (treeDepth : Nat) : List TypeCode → List (Option Value) → List (Option (List Char))
  | code :: codes, some v :: slots => some (fieldToString treeDepth code v) :: slotTexts treeDepth codes slots
  | _ :: codes, none :: slots => none :: slotTexts treeDepth codes slots
  | _, _ => []

end

/-- `FlatbufferToJson`, where nothing stands for a null pointer. -/
def flatbufferToJson (root : Nat) : Option Value → List Char
  | none => null
  | some t => objectText S o 0 root (slotTexts S o floatToString 1 (S.typeTable root).typeCodes t.slots)

end

end RobotCode.Json
