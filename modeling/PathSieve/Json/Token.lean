import PathSieve.Json.Number

/-!
# Tokens of a JSON text

The reader takes a text character by character. Between tokens it passes over blanks and takes
punctuation; a quote, a digit, a minus sign or a letter opens a longer token, of which it keeps what
it has seen. A number or a word ends where a character comes that it cannot hold, and is judged as a
whole there.

Strings are collected as codes, since an escape may name half of a surrogate pair; the halves are
put together at the end of the string. Half a pair on its own is no character and becomes `U+FFFD`.
-/

namespace PathSieve.Json

/-- One token. -/
inductive Token where
  | openArray
  | closeArray
  | openObject
  | closeObject
  | comma
  | colon
  | null
  | bool (b : Bool)
  | number (n : Number)
  | string (s : String)
deriving DecidableEq, Repr

/-- What is wrong with a text. -/
inductive SyntaxFault where
  | unexpectedCharacter (c : Char)
  | badNumber (text : String)
  | unknownWord (text : String)
  | badEscape (c : Char)
  | misplaced (token : Token)
  | unexpectedEnd
deriving DecidableEq, Repr

/-- The wording of a fault. -/
def SyntaxFault.message : SyntaxFault → String
  | unexpectedCharacter c => "unexpected character '" ++ c.toString ++ "' in JSON"
  | badNumber text => "'" ++ text ++ "' is no JSON number"
  | unknownWord text => "'" ++ text ++ "' is no JSON value"
  | badEscape c => "unknown escape '\\" ++ c.toString ++ "' in JSON"
  | misplaced _ => "misplaced value or punctuation in JSON"
  | unexpectedEnd => "unexpected end of JSON"

namespace Token

/-- Where the reader is. Collected codes and characters are held last one first. -/
inductive Mode where
  | between
  | inNumber (seen : List Char)
  | inWord (seen : List Char)
  | inString (codes : List Nat)
  | inEscape (codes : List Nat)
  | inHex (codes : List Nat) (digitsLeft value : Nat)
deriving DecidableEq, Repr

/-- Whether a character may stand between tokens. -/
def isBlank (c : Char) : Bool := c == ' ' || c == '\t' || c == '\n' || c == '\r'

/-- Whether a number may hold a character. -/
def inNumber (c : Char) : Bool := c.isDigit || c == '-' || c == '+' || c == '.' || c == 'e' || c == 'E'

/-- The token that a punctuation character is. -/
def punctuation? : Char → Option Token
  | '[' => some .openArray
  | ']' => some .closeArray
  | '\x7b' => some .openObject
  | '\x7d' => some .closeObject
  | ',' => some .comma
  | ':' => some .colon
  | _ => none

/-- The value of a hexadecimal digit. -/
def hexValue? (c : Char) : Option Nat :=
  if c.isDigit then some (c.toNat - '0'.toNat)
  else if 'a' ≤ c ∧ c ≤ 'f' then some (c.toNat - 'a'.toNat + 10)
  else if 'A' ≤ c ∧ c ≤ 'F' then some (c.toNat - 'A'.toNat + 10)
  else none

/-- The character that a one-letter escape stands for. -/
def escape? : Char → Option Char
  | '"' => some '"'
  | '\\' => some '\\'
  | '/' => some '/'
  | 'b' => some '\x08'
  | 'f' => some '\x0c'
  | 'n' => some '\n'
  | 'r' => some '\r'
  | 't' => some '\t'
  | _ => none

/-- Whether a code is the first half of a surrogate pair. -/
def isHigh (code : Nat) : Bool := 0xD800 ≤ code && code < 0xDC00

/-- Whether a code is the second half of a surrogate pair. -/
def isLow (code : Nat) : Bool := 0xDC00 ≤ code && code < 0xE000

/-- The characters of a list of codes, with surrogate pairs put together. -/
def charsOf : List Nat → List Char
  | [] => []
  | [code] => [if isHigh code || isLow code then '\uFFFD' else Char.ofNat code]
  | code :: next :: rest =>
    if isHigh code && isLow next then
      Char.ofNat (0x10000 + (code - 0xD800) * 0x400 + (next - 0xDC00)) :: charsOf rest
    else
      (if isHigh code || isLow code then '\uFFFD' else Char.ofNat code) :: charsOf (next :: rest)

/-- Takes a character between tokens. -/
def start (c : Char) : Except SyntaxFault (List Token × Mode) :=
  if isBlank c then .ok ([], .between)
  else match punctuation? c with
    | some token => .ok ([token], .between)
    | none =>
      if c = '"' then .ok ([], .inString [])
      else if c.isDigit ∨ c = '-' then .ok ([], .inNumber [c])
      else if 'a' ≤ c ∧ c ≤ 'z' then .ok ([], .inWord [c])
      else .error (.unexpectedCharacter c)

/-- The token that the characters of a number spell. -/
def ofNumber (seen : List Char) : Except SyntaxFault Token :=
  match Number.ofText? seen.reverse with
  | some n => .ok (.number n)
  | none => .error (.badNumber (String.ofList seen.reverse))

/-- The token that a word is. -/
def ofWord (seen : List Char) : Except SyntaxFault Token :=
  match String.ofList seen.reverse with
  | "null" => .ok .null
  | "true" => .ok (.bool true)
  | "false" => .ok (.bool false)
  | word => .error (.unknownWord word)

/-- Ends a number or a word and takes the character behind it. -/
def startAfter (ended : Except SyntaxFault Token) (c : Char) :
    Except SyntaxFault (List Token × Mode) := do
  let token ← ended
  let (tokens, mode) ← start c
  return (token :: tokens, mode)

/-- Takes one character: the tokens it ends, and where the reader is then. -/
def step : Mode → Char → Except SyntaxFault (List Token × Mode)
  | .between, c => start c
  | .inNumber seen, c =>
    if inNumber c then .ok ([], .inNumber (c :: seen)) else startAfter (ofNumber seen) c
  | .inWord seen, c =>
    if 'a' ≤ c ∧ c ≤ 'z' then .ok ([], .inWord (c :: seen)) else startAfter (ofWord seen) c
  | .inString codes, c =>
    if c = '"' then .ok ([.string (String.ofList (charsOf codes.reverse))], .between)
    else if c = '\\' then .ok ([], .inEscape codes)
    else if c.toNat < 0x20 then .error (.unexpectedCharacter c)
    else .ok ([], .inString (c.toNat :: codes))
  | .inEscape codes, c =>
    if c = 'u' then .ok ([], .inHex codes 3 0)
    else match escape? c with
      | some d => .ok ([], .inString (d.toNat :: codes))
      | none => .error (.badEscape c)
  | .inHex codes digitsLeft value, c =>
    match hexValue? c, digitsLeft with
    | none, _ => .error (.badEscape c)
    | some digit, 0 => .ok ([], .inString ((value * 16 + digit) :: codes))
    | some digit, left + 1 => .ok ([], .inHex codes left (value * 16 + digit))

/-- Ends a text. -/
def finish : Mode → Except SyntaxFault (List Token)
  | .between => .ok []
  | .inNumber seen => (ofNumber seen).map ([·])
  | .inWord seen => (ofWord seen).map ([·])
  | _ => .error .unexpectedEnd

/-- The tokens of the rest of a text. -/
def run : Mode → List Char → Except SyntaxFault (List Token)
  | mode, [] => finish mode
  | mode, c :: cs => do
    let (tokens, next) ← step mode c
    let others ← run next cs
    return tokens ++ others

/-- The tokens of a text. -/
def ofText (text : String) : Except SyntaxFault (List Token) := run .between text.toList

end Token

end PathSieve.Json
