import PathSieve.Json.Number

/-!
# Writing JSON, and the plain text of a value

- `Value.pretty`: a value over several lines, two blanks to a level; an empty array or object stays
  on one line.
- `Value.display?`: a value as the text of a message. Strings stand for themselves, the items of an
  array are separated by commas and a missing one is empty, and an object shows only that it is one.
  An object with a field `toString` of its own has no text, and no array has that it is in.
-/

namespace PathSieve.Json

/-- A hexadecimal digit. -/
def hexDigit (n : Nat) : Char := Nat.digitChar (n % 16)

/-- A character within quotes. Quotes, backslashes and control characters are escaped. -/
def quoteChar (c : Char) : List Char :=
  match c with
  | '"' => ['\\', '"']
  | '\\' => ['\\', '\\']
  | '\x08' => ['\\', 'b']
  | '\x0c' => ['\\', 'f']
  | '\n' => ['\\', 'n']
  | '\r' => ['\\', 'r']
  | '\t' => ['\\', 't']
  | _ => if c.toNat < 0x20 then ['\\', 'u', '0', '0', hexDigit (c.toNat / 16), hexDigit c.toNat]
    else [c]

/-- A text in quotes. -/
def quote (s : String) : String :=
  "\"" ++ String.ofList (s.toList.flatMap quoteChar) ++ "\""

/-- A line end and the blanks of a level. -/
def lineStart (level : Nat) : String := "\n" ++ String.ofList (List.replicate (2 * level) ' ')

/-- Written items between brackets, each on a line of its own. -/
def block (opening closing : String) (level : Nat) (items : List String) : String :=
  if items.isEmpty then opening ++ closing
  else opening ++ lineStart (level + 1) ++ (("," ++ lineStart (level + 1)).intercalate items) ++
    lineStart level ++ closing

namespace Value

mutual

/-- A value over several lines, from a level on. -/
def prettyFrom (level : Nat) : Value → String
  | .null => "null"
  | .bool b => if b then "true" else "false"
  | .number n => n.render
  | .string s => quote s
  | .array items => block "[" "]" level (prettyItems (level + 1) items)
  | .object fields => block "\x7b" "\x7d" level (prettyFields (level + 1) fields)

/-- Each item over several lines. -/
def prettyItems (level : Nat) : List Value → List String
  | [] => []
  | v :: vs => prettyFrom level v :: prettyItems level vs

/-- Each field over several lines. -/
def prettyFields (level : Nat) : List (String × Value) → List String
  | [] => []
  | (name, v) :: fields => (quote name ++ ": " ++ prettyFrom level v) :: prettyFields level fields

end

/-- A value over several lines. -/
def pretty (v : Value) : String := prettyFrom 0 v

mutual

/-- The plain text of a value, if it has one. -/
def display? : Value → Option String
  | .null => some "null"
  | .bool b => some (if b then "true" else "false")
  | .number n => some n.render
  | .string s => some s
  | .array items => (displayItems? items).map (",".intercalate ·)
  | .object fields => if (lookup "toString" fields).isSome then none else some "[object Object]"

/-- The plain texts of the items of an array, if all have one. -/
def displayItems? : List Value → Option (List String)
  | [] => some []
  | .null :: vs => (displayItems? vs).map ("" :: ·)
  | v :: vs => do
    let first ← display? v
    let others ← displayItems? vs
    return first :: others

end

/-- The message for a value that has no plain text. -/
def textlessMessage : String := "Cannot convert object to primitive value"

/-- Whether a value has a code, as the errors of system calls do. -/
def hasCode : Value → Bool
  | .object fields =>
    match lookup "code" fields with
    | some (.string _) => true
    | some (.number _) => true
    | _ => false
  | _ => false

end Value

end PathSieve.Json
