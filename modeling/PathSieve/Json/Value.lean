/-!
# JSON values

Numbers are kept exactly, as the decimals they are written as. Objects keep their fields in order,
and a name that is given twice means its last value.
-/

namespace PathSieve.Json

/-- A number as written: a sign, its digits as one number, and a power of ten. -/
structure Number where
  negative : Bool
  digits : Nat
  exponent : Int
deriving DecidableEq, Repr

/-- A whole number. -/
def Number.ofNat (n : Nat) : Number := ⟨false, n, 0⟩

/-- A JSON value. -/
inductive Value where
  | null
  | bool (b : Bool)
  | number (n : Number)
  | string (s : String)
  | array (items : List Value)
  | object (fields : List (String × Value))
deriving Repr, Inhabited

/-- The kinds of values. -/
inductive Kind where
  | null
  | boolean
  | number
  | string
  | array
  | object
deriving DecidableEq, Repr

/-- The name of a kind. -/
def Kind.name : Kind → String
  | null => "null"
  | boolean => "boolean"
  | number => "number"
  | string => "string"
  | array => "array"
  | object => "object"

namespace Value

/-- The kind of a value. -/
def kind : Value → Kind
  | null => .null
  | bool _ => .boolean
  | number _ => .number
  | string _ => .string
  | array _ => .array
  | object _ => .object

/-- The value a field list gives a name: the last one given. -/
def lookup (name : String) (fields : List (String × Value)) : Option Value :=
  fields.reverse.lookup name

/-- An array of strings. -/
def ofStrings (texts : List String) : Value := .array (texts.map .string)

end Value

end PathSieve.Json
