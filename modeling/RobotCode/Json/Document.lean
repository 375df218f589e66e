import RobotCode.Json.Parser

/-!
# The document of a text

What the tokens of a text say, without a schema: an object is its fields in the order of the text, a
field has a value unless the object ended right after its colon. `document` reads the tokens into a
tree, and `storeRoot` is what the parser makes of such a tree with a schema: nothing when it gives
up, else the table that it writes.
-/

namespace RobotCode.Json

open Flatbuffers

/-- A value that is neither a string nor nested. -/
inductive Literal where
  | true
  | false
  | number (text : List Char)
  deriving DecidableEq, Repr

def Literal.token : Literal → Token
  | .true => .true
  | .false => .false
  | .number text => .number text

inductive Document where
  | literal (value : Literal)
  | string (text : List Char)
  | array (items : List Document)
  | object (fields : List (List Char × Option Document))

/-- A property of values that passes from the items of an array and the fields of an object to the
whole holds of every value. -/
theorem Document.induct {P : Document → Prop} (literal : ∀ value, P (.literal value))
    (string : ∀ text, P (.string text)) (array : ∀ items, (∀ d ∈ items, P d) → P (.array items))
    (object : ∀ fields, (∀ name d, (name, some d) ∈ fields → P d) → P (.object fields)) (d : Document) : P d :=
  match d with
  | .literal value => literal value
  | .string text => string text
  | .array items => array items fun d _ => induct literal string array object d
  | .object fields => object fields fun name d hd => by
    have : sizeOf (name, some d) < sizeOf fields := List.sizeOf_lt_of_mem hd
    exact induct literal string array object d
  termination_by sizeOf d
  decreasing_by
    · have := List.sizeOf_lt_of_mem ‹d ∈ items›
      simp only [Document.array.sizeOf_spec]
      omega
    · simp only [Document.object.sizeOf_spec, Prod.mk.sizeOf_spec, Option.some.sizeOf_spec] at *
      omega

inductive Frame where
  /-- The fields that are complete, and the name of the one that is not. -/
  | object (fields : List (List Char × Option Document)) (pending : Option (List Char))
  | array (items : List Document)

/-- The open objects and arrays, the innermost first, and the outermost object when it is closed. -/
structure Reader where
  frames : List Frame
  root : Option Document

def closeFields (fields : List (List Char × Option Document)) (pending : Option (List Char)) :
    List (List Char × Option Document) :=
  fields ++ (pending.map fun name => (name, none)).toList

def complete (d : Document) : List Frame → Option Reader
  | [] => some ⟨[], some d⟩
  | .object fields (some name) :: frames => some ⟨.object (fields ++ [(name, some d)]) none :: frames, none⟩
  | .object _ none :: _ => none
  | .array items :: frames => some ⟨.array (items ++ [d]) :: frames, none⟩

def readStep (r : Reader) : Token → Option Reader
  | .startObject => some ⟨.object [] none :: r.frames, none⟩
  | .startArray => some ⟨.array [] :: r.frames, none⟩
  | .endObject =>
    match r.frames with
    | .object fields pending :: frames => complete (.object (closeFields fields pending)) frames
    | _ => none
  | .endArray =>
    match r.frames with
    | .array items :: frames => complete (.array items) frames
    | _ => none
  | .field name =>
    match r.frames with
    | .object fields none :: frames => some ⟨.object fields (some name) :: frames, none⟩
    | _ => none
  | .string text => complete (.string text) r.frames
  | .true => complete (.literal .true) r.frames
  | .false => complete (.literal .false) r.frames
  | .number text => complete (.literal (.number text)) r.frames
  | .done => none

def document (data : List Char) : Option Document :=
  runTokens readStep (fun r => if r.frames.isEmpty then r.root else none) (tokenBound data)
    (Tokenizer.new data) ⟨[], none⟩

/-- An `Element`, with what its offset leads to. -/
inductive Stored where
  | int (value : Int)
  | double (bits : Int)
  | object (value : Value)

section

variable (F : FloatOps) (S : Schema)

/-- The element of `true`, `false` or a number. -/
def literalStored : Literal → Option Stored
  | .true => some (.int 1)
  | .false => some (.int 0)
  | .number text =>
    match fieldAsInt text with
    | some x => some (.int x)
    | none => (F.fieldAsDouble text).map .double

def stringStored (k i : Nat) (text : List Char) : Option Stored :=
  if isIntegerType (fieldElementaryType S k i) && fieldIsEnum S k i then
    if isEnum S (fieldType S k i) then (enumValue S (fieldType S k i) text).map .int else none
  else some (.object (.string text))

/-- The value of a field, as `AddSingleElement` stores it. -/
def fieldValue (k i : Nat) : Stored → Option Value
  | .int x => intScalar F (fieldElementaryType S k i) x
  | .double x => doubleScalar F (fieldElementaryType S k i) x
  | .object v => if fieldIsRepeating S k i || isOffsetType (fieldElementaryType S k i) then some v else none

/-- The value of an element of a vector, as `PushElement` stores it. -/
def elementValue (k i : Nat) : Stored → Option Value
  | .int x => intScalar F (fieldElementaryType S k i) x
  | .double x => doubleScalar F (fieldElementaryType S k i) x
  | .object v => if isOffsetType (fieldElementaryType S k i) then some v else none

def firstOf (i : Nat) (elements : List (Nat × Stored)) : Option Stored := elements.lookup i

/-- The table of the elements, as `WriteTable` writes it. -/
def storedTable (k : Nat) (elements : List (Nat × Stored)) : Value :=
  .table ((List.range (S.typeTable k).numElems).map fun i =>
    (firstOf i elements).bind (fieldValue F S k i))

mutual

def store (k i : Nat) (inVector : Bool) : Document → Option Stored
  | .literal value => if fieldIsRepeating S k i = inVector then literalStored F value else none
  | .string text => if fieldIsRepeating S k i = inVector then stringStored S k i text else none
  | .array items =>
    -- there are no vectors of vectors
    if inVector then none
    else do
      let elements ← storeItems k i items
      let values ← elements.mapM (elementValue F S k i)
      some (.object (.vector values))
  | .object fields =>
    if fieldIsSequence S k i then do
      let elements ← storeFields (fieldType S k i) fields
      some (.object (storedTable F S (fieldType S k i) elements))
    else none

def storeItems (k i : Nat) : List Document → Option (List Stored)
  | [] => some []
  | item :: items => do
    let e ← store k i true item
    let rest ← storeItems k i items
    some (e :: rest)

/-- The elements of an object. A field without a value has none, but its name is looked up. -/
def storeFields (k : Nat) : List (List Char × Option Document) → Option (List (Nat × Stored))
  | [] => some []
  | (name, none) :: fields => do
    let _ ← fieldIndex S k (cStr name)
    storeFields k fields
  | (name, some d) :: fields => do
    let i ← fieldIndex S k (cStr name)
    let e ← store k i false d
    let rest ← storeFields k fields
    some ((i, e) :: rest)

end

def storeRoot (root : Nat) : Document → Option Value
  | .object fields => (storeFields F S root fields).map (storedTable F S root)
  | _ => none

end

end RobotCode.Json
