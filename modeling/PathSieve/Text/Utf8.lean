/-!
# Decoding UTF-8

The decoder reads bytes one at a time. It is either between characters or part way through one, in
which case it knows how many bytes are missing, between which bounds the next one must lie, and the
value so far. A byte that cannot continue the sequence ends it: the part read so far becomes one
`U+FFFD`, and the byte starts afresh. So a fault costs one replacement character for each longest
start of a well-formed sequence, and no well-formed character is lost. A byte order mark is a
character like any other.
-/

namespace PathSieve.Text.Utf8

/-- What stands for bytes that are no character. -/
def replacement : Char := '\uFFFD'

/-- Where the decoder is: between characters, or inside one with `more + 1` bytes to come, of which
the next lies between `low` and `high`. -/
inductive State where
  | between
  | inside (more : Nat) (low high : UInt8) (value : Nat)
deriving Repr, DecidableEq

/-- Reads the first byte of a character. The bounds on the second byte leave out overlong forms,
surrogates and values beyond the last code point. -/
def start (b : UInt8) : List Char × State :=
  if b < 0x80 then ([Char.ofNat b.toNat], .between)
  else if b < 0xC2 then ([replacement], .between)
  else if b < 0xE0 then ([], .inside 0 0x80 0xBF (b.toNat - 0xC0))
  else if b = 0xE0 then ([], .inside 1 0xA0 0xBF 0)
  else if b = 0xED then ([], .inside 1 0x80 0x9F 0xD)
  else if b < 0xF0 then ([], .inside 1 0x80 0xBF (b.toNat - 0xE0))
  else if b = 0xF0 then ([], .inside 2 0x90 0xBF 0)
  else if b < 0xF4 then ([], .inside 2 0x80 0xBF (b.toNat - 0xF0))
  else if b = 0xF4 then ([], .inside 2 0x80 0x8F 4)
  else ([replacement], .between)

/-- Reads one byte. -/
def step : State → UInt8 → List Char × State
  | .between, b => start b
  | .inside more low high value, b =>
    if low ≤ b ∧ b ≤ high then
      let value := value * 64 + (b.toNat - 0x80)
      match more with
      | 0 => ([Char.ofNat value], .between)
      | more + 1 => ([], .inside more 0x80 0xBF value)
    else
      let (cs, next) := start b
      (replacement :: cs, next)

/-- Reads the bytes that are left. A character cut short by the end is one replacement. -/
def run : State → List UInt8 → List Char
  | .between, [] => []
  | .inside .., [] => [replacement]
  | s, b :: bs => (step s b).1 ++ run (step s b).2 bs

/-- The characters of a sequence of bytes. -/
def decode (bs : List UInt8) : List Char := run .between bs

/-- The bytes of a text. -/
def encode (cs : List Char) : List UInt8 := cs.flatMap String.utf8EncodeChar

end PathSieve.Text.Utf8
