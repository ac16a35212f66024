import PathSieve.Json.Token

/-!
# Reading JSON

Tokens are taken one at a time. What is open is held in a list, innermost first: an array with the
items read so far, or an object with its fields so far and the name whose value is awaited. A
finished value goes to the innermost open one, or is the result if nothing is open; nothing but the
end may follow the result.
-/

namespace PathSieve.Json

/-- An array or object that is not closed yet. What it holds is kept last one first. -/
inductive Frame where
  | array (items : List Value)
  | object (fields : List (String × Value)) (name : String)

/-- What may come next. -/
inductive State where
  /-- A value. -/
  | value (outer : List Frame)
  /-- The first item of an array, or its end. -/
  | firstItem (outer : List Frame)
  /-- The first name of an object, or its end. -/
  | firstName (outer : List Frame)
  /-- A name. -/
  | nextName (fields : List (String × Value)) (outer : List Frame)
  /-- The colon behind a name. -/
  | colon (fields : List (String × Value)) (name : String) (outer : List Frame)
  /-- What may follow a value. -/
  | after (v : Value) (outer : List Frame)

namespace State

/-- Takes the first token of a value. -/
def startValue (outer : List Frame) : Token → Except SyntaxFault State
  | .null => .ok (.after .null outer)
  | .bool b => .ok (.after (.bool b) outer)
  | .number n => .ok (.after (.number n) outer)
  | .string s => .ok (.after (.string s) outer)
  | .openArray => .ok (.firstItem outer)
  | .openObject => .ok (.firstName outer)
  | token => .error (.misplaced token)

/-- Takes a token behind a value. -/
def next (v : Value) : List Frame → Token → Except SyntaxFault State
  | .array items :: outer, .comma => .ok (.value (.array (v :: items) :: outer))
  | .array items :: outer, .closeArray => .ok (.after (.array (v :: items).reverse) outer)
  | .object fields name :: outer, .comma => .ok (.nextName ((name, v) :: fields) outer)
  | .object fields name :: outer, .closeObject =>
    .ok (.after (.object ((name, v) :: fields).reverse) outer)
  | _, token => .error (.misplaced token)

/-- Takes one token. -/
def step : State → Token → Except SyntaxFault State
  | .value outer, token => startValue outer token
  | .firstItem outer, .closeArray => .ok (.after (.array []) outer)
  | .firstItem outer, token => startValue (.array [] :: outer) token
  | .firstName outer, .closeObject => .ok (.after (.object []) outer)
  | .firstName outer, .string s => .ok (.colon [] s outer)
  | .nextName fields outer, .string s => .ok (.colon fields s outer)
  | .colon fields name outer, .colon => .ok (.value (.object fields name :: outer))
  | .after v outer, token => next v outer token
  | _, token => .error (.misplaced token)

/-- Takes the tokens that are left, and gives the value that all of them are. -/
def run : State → List Token → Except SyntaxFault Value
  | .after v [], [] => .ok v
  | _, [] => .error .unexpectedEnd
  | s, token :: tokens => do
    let next ← s.step token
    next.run tokens

end State

/-- The value that a text is. -/
def Value.ofText (text : String) : Except SyntaxFault Value := do
  let tokens ← Token.ofText text
  (State.value []).run tokens

end PathSieve.Json
