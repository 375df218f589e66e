import Mathlib

/-!
# The JSON tokenizer

`Tokenizer` of `aos/json_tokenizer.cc`: the state machine of json.org with comments in all white
space. The text is the list of characters that are left. Each `Consume` function gives what is left
after it, or nothing when it returns false and leaves the text as it was; `consumeNumber` also gives
what is left when it fails, since it may have taken a sign.

`next` gives nothing for `kError`. A comment that never ends makes `ConsumeChar` throw, which is an
error here as well. Line numbers only serve the messages and are left out.
-/

namespace RobotCode.Json

/-- `Char()`. At the end of the text this is the terminating zero. -/
def char : List Char → Char
  | [] => Char.ofNat 0
  | c :: _ => c

def consume : List Char → List Char → Option (List Char)
  | [], data => some data
  | _ :: _, [] => none
  | c :: token, d :: data => if c = d then consume token data else none

/-- `ConsumeWhitespace()`, in a comment or not. -/
def consumeSpace : Bool → List Char → Option (List Char)
  | false, [] => some []
  | false, ' ' :: data => consumeSpace false data
  | false, '\r' :: data => consumeSpace false data
  | false, '\t' :: data => consumeSpace false data
  | false, '\n' :: data => consumeSpace false data
  | false, '/' :: '*' :: data => consumeSpace true data
  | false, data => some data
  | true, '*' :: '/' :: data => consumeSpace false data
  | true, _ :: data => consumeSpace true data
  | true, [] => none

def consumeWhitespace (data : List Char) : Option (List Char) := consumeSpace false data

/-- What an escaped character stands for; an unknown one is dropped. -/
def escaped : Char → Option (List Char)
  | '"' => some ['"']
  | '\\' => some ['\\']
  | '/' => some ['/']
  | 'b' => some ['\x08']
  | 'f' => some ['\x0c']
  | 'n' => some ['\n']
  | 'r' => some ['\r']
  | 't' => some ['\t']
  | 'u' => none
  | _ => some []

/-- The loop of `ConsumeString`: the string up to the closing quote, and what is left. -/
def stringBody : List Char → Option (List Char × List Char)
  | [] => none
  | ['\\'] => none
  | '\\' :: c :: data => do
    let piece ← escaped c
    let (s, rest) ← stringBody data
    some (piece ++ s, rest)
  | c :: data =>
    if c = '"' then some ([], data)
    else do
      let (s, rest) ← stringBody data
      some (c :: s, rest)

def consumeString : List Char → Option (List Char × List Char)
  | '"' :: data => stringBody data
  | _ => none

def isDigit (c : Char) : Bool := decide ('0' ≤ c) && decide (c ≤ '9')

section

variable (data : List Char)

/-- Any number of digits, which must not be the end of the text. -/
def consumeDigits : Option (List Char) :=
  if data.dropWhile isDigit = [] then none else some (data.dropWhile isDigit)

/-- `0`, or digits that do not start with a zero. -/
def consumeInteger : Option (List Char) :=
  match consume ['0'] data with
  | some rest => some rest
  | none => consumeDigits data

def consumeFraction : Option (List Char) :=
  if char data = '.' then consumeDigits data.tail else some data

def consumeExponent : Option (List Char) :=
  if char data = 'e' ∨ char data = 'E' then
    let data := data.tail
    if data = [] then none
    else
      let digits := if char data = '+' ∨ char data = '-' then data.tail else data
      if isDigit (char digits) then consumeDigits digits else none
  else some data

end

def consumed (original data : List Char) : List Char :=
  original.take (original.length - data.length)

/-- `ConsumeNumber()`: the text of the number if there is one, and what is left. -/
def consumeNumber (original : List Char) : Option (List Char) × List Char :=
  let data := (consume ['-'] original).getD original
  match consume ['n', 'a', 'n'] data with
  | some rest => (some (consumed original rest), rest)
  | none =>
    match consume ['n', 'u', 'l', 'l'] data with
    | some rest => (some ['n', 'a', 'n'], rest)
    | none =>
      match consume ['i', 'n', 'f'] data with
      | some rest => (some (consumed original rest), rest)
      | none =>
        -- a sign without a digit is not given back
        if data = [] ∨ ¬ isDigit (char data) then (none, data)
        else
          match (consumeInteger data).bind consumeFraction |>.bind consumeExponent with
          | some rest => (some (consumed original rest), rest)
          | none => (none, original)

/-! ### The state machine -/

/-- `TokenType`, with the field name or value that comes with it. -/
inductive Token where
  | done
  | startObject
  | endObject
  | startArray
  | endArray
  | field (name : List Char)
  | number (text : List Char)
  | string (text : List Char)
  | true
  | false
  deriving DecidableEq, Repr

/-- `Tokenizer::State`. -/
inductive State where
  | expectField | expectObjectStart | expectObjectEnd | expectArrayEnd | expectValue | expectEnd
  deriving DecidableEq, Repr

/-- `Tokenizer::ObjectType`. -/
inductive ObjectType where
  | object | array
  deriving DecidableEq, Repr

structure Tokenizer where
  state : State
  data : List Char
  objectType : List ObjectType
  deriving DecidableEq, Repr

namespace Tokenizer

variable (objectType : List ObjectType) (data : List Char)

def new : Tokenizer := ⟨.expectObjectStart, data, []⟩

/-- After `{`. -/
def openObject : Option (Token × Tokenizer) := do
  let data ← consumeWhitespace data
  match consume ['}'] data with
  | some data =>
    let data ← consumeWhitespace data
    some (.startObject, ⟨.expectObjectEnd, data, .object :: objectType⟩)
  | none => some (.startObject, ⟨.expectField, data, .object :: objectType⟩)

def closing : ObjectType → Char
  | .object => '}'
  | .array => ']'

def closed : ObjectType → State
  | .object => .expectObjectEnd
  | .array => .expectArrayEnd

def following : ObjectType → State
  | .object => .expectField
  | .array => .expectValue

/-- After a value or the end of a nested object or array: a comma, or the end of what it is in. -/
def separate (token : Token) (objectType : List ObjectType) (data : List Char) :
    Option (Token × Tokenizer) :=
  match objectType with
  | [] => none
  | type :: _ =>
    match consume [','] data with
    | some data => do
      let data ← consumeWhitespace data
      some (token, ⟨following type, data, objectType⟩)
    | none => do
      let data ← consume [closing type] data
      let data ← consumeWhitespace data
      some (token, ⟨closed type, data, objectType⟩)

/-- `Next()` in `kExpectObjectEnd` and `kExpectArrayEnd`. -/
def nextEnd (token : Token) (objectType : List ObjectType) (data : List Char) :
    Option (Token × Tokenizer) :=
  match objectType.tail with
  | [] => some (token, ⟨.expectEnd, data, []⟩)
  | type :: outer => separate token (type :: outer) data

def endToken : ObjectType → Token
  | .object => .endObject
  | .array => .endArray

/-- A bracket in place of a value, which ends what it is in. -/
def nextClosing : Option (Token × Tokenizer) :=
  match objectType with
  | [] => none
  | type :: _ => do
    let data ← consume [closing type] data
    let data ← consumeWhitespace data
    nextEnd (endToken type) objectType data

/-- `Next()` in `kExpectValue`. -/
def nextValue : Option (Token × Tokenizer) :=
  match consume ['{'] data with
  | some data => openObject objectType data
  | none =>
    match consume ['['] data with
    | some data => do
      let data ← consumeWhitespace data
      some (.startArray, ⟨.expectValue, data, .array :: objectType⟩)
    | none =>
      match consumeString data with
      | some (s, data) => do separate (.string s) objectType (← consumeWhitespace data)
      | none =>
        match consumeNumber data with
        | (some s, data) => do separate (.number s) objectType (← consumeWhitespace data)
        | (none, data) =>
          match consume ['t', 'r', 'u', 'e'] data with
          | some data => do separate .true objectType (← consumeWhitespace data)
          | none =>
            match consume ['f', 'a', 'l', 's', 'e'] data with
            | some data => do separate .false objectType (← consumeWhitespace data)
            | none => nextClosing objectType data

def next (t : Tokenizer) : Option (Token × Tokenizer) :=
  match t.state with
  | .expectObjectStart => do openObject t.objectType (← consume ['{'] t.data)
  | .expectField => do
    let (s, data) ← consumeString t.data
    let data ← consumeWhitespace data
    let data ← consume [':'] data
    let data ← consumeWhitespace data
    some (.field s, ⟨.expectValue, data, t.objectType⟩)
  | .expectValue => nextValue t.objectType t.data
  | .expectArrayEnd => nextEnd .endArray t.objectType t.data
  | .expectObjectEnd => nextEnd .endObject t.objectType t.data
  | .expectEnd => if t.data = [] then some (.done, t) else none

end Tokenizer

end RobotCode.Json
