import RegexSearch.Pattern.Tree

/-!
Quantifiers: a star, a plus, a question mark or a count in braces, and a question mark behind it
that makes it lazy.
-/

namespace RegexSearch

/-- No repetition may be asked for more often than this. -/
def maxRepeatCount : Nat := 100000

/-- The bytes that start a quantifier. -/
def Byte.isQuantifier (b : Byte) : Bool :=
  match b.toChar with
  | '*' | '+' | '?' | '{' => true
  | _ => false

/-- The number that a string of decimal digits writes. -/
def digitsValue (digits : Bytes) : Nat :=
  digits.foldl (fun value digit => value * 10 + digit.digitValue) 0

/-- Reads the decimal number at the front, which must be there and must not be too large, and
counts its digits. -/
def readCount (bytes : Bytes) : Option (Nat × Nat) :=
  let digits := bytes.takeWhile Byte.isDigit
  if digits.isEmpty || maxRepeatCount < digitsValue digits then none
  else some (digitsValue digits, digits.length)

/-- The bounds of a repetition in braces, read from what follows the opening brace, and the count
of bytes that they take up to the closing brace. -/
def readBraces (bytes : Bytes) : Option ((Nat × Option Nat) × Nat) := do
  let (min, taken) ← readCount bytes
  let following := bytes.drop taken
  match (following.take 2).map Byte.toChar with
  | '}' :: _ => some ((min, some min), taken + 1)
  | [',', '}'] => some ((min, none), taken + 2)
  | ',' :: _ =>
    let (max, more) ← readCount (following.drop 1)
    if (following.drop (1 + more)).head?.any (·.toChar == '}') && min ≤ max then
      some ((min, some max), taken + 1 + more + 1)
    else none
  | _ => none

/-- The bounds that a quantifier starting with the byte `b` asks for, and the count of bytes that
it takes behind that byte. Only braces can be malformed. -/
def readBounds (b : Byte) (rest : Bytes) : Option ((Nat × Option Nat) × Nat) :=
  match b.toChar with
  | '*' => some ((0, none), 0)
  | '+' => some ((1, none), 0)
  | '?' => some ((0, some 1), 0)
  | _ => readBraces rest

/-- Reads the quantifier that starts with the byte `b`, and counts the bytes that it takes behind
that byte. -/
def readQuantifier (b : Byte) (rest : Bytes) : Option (Quantifier × Nat) := do
  let ((min, max), taken) ← readBounds b rest
  if (rest.drop taken).head?.any (·.toChar == '?') then some (⟨min, max, false⟩, taken + 1)
  else some (⟨min, max, true⟩, taken)

end RegexSearch
