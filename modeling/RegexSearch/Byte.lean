/-!
Bytes, the alphabet of patterns and texts. A pattern is a list of bytes, which is read from the
left; a text is an array of bytes, because a search returns to earlier offsets. The classes of
bytes below know ASCII only: a byte from 128 on is neither a digit nor a letter nor a space.
-/

namespace RegexSearch

/-- One symbol of a pattern or of a text. -/
abbrev Byte := UInt8

/-- A byte string that is read or written from the left: a pattern, a message, a listing. -/
abbrev Bytes := List Byte

/-- A text to be searched, addressed by offset. -/
abbrev Text := Array Byte

/-- The bytes of an ASCII word. -/
def ascii (word : String) : Bytes :=
  word.toList.map Char.toUInt8

/-- A number in decimal digits, without leading zeros. -/
def decimal (n : Nat) : Bytes :=
  (Nat.toDigits 10 n).map Char.toUInt8

namespace Byte

/-- The character with the code of the byte, so that ASCII bytes can be tested by name. -/
def toChar (b : Byte) : Char :=
  Char.ofUInt8 b

/-- Whether a byte lies between two characters, both included. -/
def between (low high : Char) (b : Byte) : Bool :=
  low.toUInt8 ≤ b && b ≤ high.toUInt8

def isDigit (b : Byte) : Bool :=
  b.between '0' '9'

def isLetter (b : Byte) : Bool :=
  b.between 'a' 'z' || b.between 'A' 'Z'

/-- A word is made of digits, letters and the underscore. -/
def isWord (b : Byte) : Bool :=
  b.isDigit || b.isLetter || b.toChar == '_'

/-- The blank, and the control bytes from the tab to the carriage return. -/
def isSpace (b : Byte) : Bool :=
  b.between '\t' '\r' || b.toChar == ' '

def isNewline (b : Byte) : Bool :=
  b.toChar == '\n' || b.toChar == '\r'

/-- The value of a decimal digit, counted from the code of zero. -/
def digitValue (b : Byte) : Nat :=
  b.toNat - '0'.toNat

/-- The value of a hexadecimal digit of either case. -/
def hexValue? (b : Byte) : Option Nat :=
  if b.isDigit then some b.digitValue
  else if b.between 'a' 'f' then some (b.toNat - 'a'.toNat + 10)
  else if b.between 'A' 'F' then some (b.toNat - 'A'.toNat + 10)
  else none

/-- The lower-case hexadecimal digit of a value below sixteen. -/
def hexDigit (value : Nat) : Byte :=
  (Nat.digitChar value).toUInt8

/-- How a byte is shown in listings: control bytes that have an escape of one letter by that
escape, a backslash doubled, other bytes outside printable ASCII by two hexadecimal digits, and
the rest as they are. -/
def shown (b : Byte) : Bytes :=
  match b.toChar with
  | '\x0c' => ascii "\\f"
  | '\n' => ascii "\\n"
  | '\r' => ascii "\\r"
  | '\t' => ascii "\\t"
  | '\x0b' => ascii "\\v"
  | '\x00' => ascii "\\0"
  | '\\' => ascii "\\\\"
  | _ =>
    if b < 0x20 || 0x7f ≤ b then
      ascii "\\x" ++ [hexDigit (b.toNat / 16), hexDigit (b.toNat % 16)]
    else [b]

end Byte

end RegexSearch
