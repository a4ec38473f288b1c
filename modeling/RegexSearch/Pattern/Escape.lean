import RegexSearch.Error
import RegexSearch.Pattern.Tree

/-!
Escapes, the sequences that a backslash starts. The reader is given what follows the backslash
and says how many of these bytes belong to the escape. Inside brackets an escape stands for a
byte or a set, so there is no anchor and no backreference there, and `\b` is the backspace.
-/

namespace RegexSearch

/-- Where an escape is read. -/
inductive EscapeContext where
  /-- Outside brackets, with so many capturing groups opened before. -/
  | operand (groups : Nat)
  | brackets
  deriving DecidableEq, Repr

/-- Continues the number of a backreference with further digits, as long as the longer number
still names one of the groups. The result is the number and the count of digits taken. -/
def continueReference (groups number : Nat) : Bytes → Nat × Nat
  | [] => (number, 0)
  | digit :: rest =>
    if digit.isDigit && number * 10 + digit.digitValue ≤ groups then
      let (last, taken) := continueReference groups (number * 10 + digit.digitValue) rest
      (last, taken + 1)
    else (number, 0)

/-- A backslash and a digit other than zero: with one group, `\10` is group one followed by a
zero. -/
def readReference (groups : Nat) (digit : Byte) (rest : Bytes) : Except Cause (Atom × Nat) :=
  if groups < digit.digitValue then .error .badBackreference
  else
    let (group, taken) := continueReference groups digit.digitValue rest
    .ok (.backref group, taken + 1)

/-- The escape `\c` and a letter: the control byte that shares the low bits of the letter. -/
def readControl : Bytes → Except Cause (Atom × Nat)
  | letter :: _ => if letter.isLetter then .ok (.byte (letter % 32), 2) else .error .badEscape
  | [] => .error .badEscape

/-- The escape `\x` and two hexadecimal digits. -/
def readHexadecimal : Bytes → Except Cause (Atom × Nat)
  | high :: low :: _ =>
    match high.hexValue?, low.hexValue? with
    | some h, some l => .ok (.byte (UInt8.ofNat (h * 16 + l)), 3)
    | _, _ => .error .badEscape
  | _ => .error .badEscape

/-- Reads an escape from what follows its backslash, and counts the bytes that it takes there. A
byte that no rule claims stands for itself, unless it belongs to a word: letters are reserved. -/
def readEscape (context : EscapeContext) : Bytes → Except Cause (Atom × Nat)
  | [] => .error .badEscape
  | b :: rest =>
    match b.toChar with
    | 'f' => .ok (.byte 0x0c, 1)
    | 'n' => .ok (.byte 0x0a, 1)
    | 'r' => .ok (.byte 0x0d, 1)
    | 't' => .ok (.byte 0x09, 1)
    | 'v' => .ok (.byte 0x0b, 1)
    | '0' => .ok (.byte 0x00, 1)
    | 'c' => readControl rest
    | 'x' => readHexadecimal rest
    | 'd' => .ok (.set .digits, 1)
    | 'D' => .ok (.set ByteSet.digits.invert, 1)
    | 's' => .ok (.set .spaces, 1)
    | 'S' => .ok (.set ByteSet.spaces.invert, 1)
    | 'w' => .ok (.set .words, 1)
    | 'W' => .ok (.set ByteSet.words.invert, 1)
    | 'b' =>
      match context with
      | .brackets => .ok (.byte 0x08, 1)
      | .operand _ => .ok (.anchor .wordBoundary, 1)
    | 'B' =>
      match context with
      | .brackets => .error .badEscape
      | .operand _ => .ok (.anchor .nonWordBoundary, 1)
    | _ =>
      if b.isDigit then
        match context with
        | .brackets => .error .badEscape
        | .operand groups => readReference groups b rest
      else if b.isWord then .error .badEscape
      else .ok (.byte b, 1)

end RegexSearch
