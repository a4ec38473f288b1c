import RegexSearch.Pattern.Construct
import RegexSearch.Pattern.Reader

/-!
Reading a pattern by recursive descent. A cursor moves through the pattern, and one procedure reads
each nonterminal of the grammar from the cursor on:

    alternation  ::=  concat ('|' concat)*
    concat       ::=  repetition+
    repetition   ::=  atom (quantifier '?'?)?

A procedure may fail. Then it has no result, and the reason has been noted before; the first reason
that is noted stays. Nothing in a procedure checks where it looks: a byte is looked up by its index,
and whoever asks for it has to know that there is one. So a trace is kept of every index that is
looked at, of every move of the cursor, and of every round of a loop. And nothing bounds the loops
and the calls: a descent that does not return has no value at all.
-/

namespace RegexSearch

/-- What happens while a pattern is read. -/
inductive Event where
  /-- The byte with this index is looked at. -/
  | look (index : Nat)
  /-- The cursor is moved. -/
  | move (start stop : Nat)
  /-- A round of a loop is over, and the next one may begin. -/
  | round (start stop : Nat)
  deriving DecidableEq, Repr

/-- How far a descent has come: the cursor, the number of capturing groups opened so far, and the
first reason to fail. -/
structure Standing where
  cursor : Nat
  groups : Nat
  failure : Option Error
  deriving DecidableEq, Repr

/-- A part of a descent. It returns or does not, and if it returns it has a result or has none. The
trace has the latest event first. -/
abbrev Descent (α : Type) : Type :=
  OptionT (StateT Standing (StateT (List Event) Option)) α

namespace Descent

/-! ### The cursor -/

def record (event : Event) : Descent Unit :=
  modifyThe (List Event) (event :: ·)

def cursor : Descent Nat :=
  return (← get).cursor

/-- Moves the cursor over so many bytes. -/
def move (count : Nat) : Descent Unit := do
  let start ← cursor
  record (.move start (start + count))
  modify ({ · with cursor := start + count })

/-- Ends a round of a loop that began at the offset `start`. -/
def round (start : Nat) : Descent Unit := do
  record (.round start (← cursor))

/-- Notes a reason to fail, unless there is one already, and fails. -/
def refuse {α : Type} (cause : Cause) (position : Nat) : Descent α := do
  modify fun here => { here with failure := here.failure.or (some ⟨cause, position⟩) }
  failure

/-- The pattern a descent reads. A procedure that calls itself is a procedure of the pattern. -/
abbrev Source := Bytes

variable (pattern : Source)

def look (index : Nat) : Descent Byte := do
  record (.look index)
  return pattern[index]?.getD 0

def atEnd : Descent Bool :=
  return pattern.length ≤ (← cursor)

/-- The byte at the cursor, which has to be there. -/
def peek : Descent Byte := do
  look pattern (← cursor)

/-- The byte at the cursor, which has to be there, and the cursor moves over it. -/
def take : Descent Byte := do
  let b ← peek pattern
  move 1
  return b

/-- Whether there is a byte at the cursor that satisfies a condition. -/
def ahead (condition : Byte → Bool) : Descent Bool := do
  if ← atEnd pattern then return false else return condition (← peek pattern)

/-- Moves over the byte at the cursor if it satisfies a condition, and tells whether it does. -/
def skip (condition : Byte → Bool) : Descent Bool := do
  if ← ahead pattern condition then
    move 1
    return true
  else return false

/-! ### Escapes -/

/-- Continues the number of a backreference as long as it names a group. -/
def Source.reference (pattern : Source) (number : Nat) : Descent Nat := do
  let groups := (← get).groups
  if ← ahead pattern fun b => b.isDigit && number * 10 + b.digitValue ≤ groups then
    let start ← cursor
    let digit ← take pattern
    round start
    pattern |>.reference (number * 10 + digit.digitValue)
  else return number
partial_fixpoint

/-- An escape whose first byte has no name: a backreference, or the byte itself. -/
def unnamed (inBrackets : Bool) (start : Nat) (b : Byte) : Descent Atom := do
  if b.between '1' '9' then
    if inBrackets then refuse .badEscape start
    else if (← get).groups < b.digitValue then refuse .badBackreference start
    else return .backref (← pattern.reference b.digitValue)
  else if b.isWord then refuse .badEscape start
  else return .byte b

/-- A letter, behind its `c`. -/
def letter (start : Nat) : Descent Atom := do
  if ← ahead pattern Byte.isLetter then return .byte ((← take pattern) % 32)
  else refuse .badEscape start

/-- Two hexadecimal digits, behind their `x`. -/
def hexadecimal (start : Nat) : Descent Atom := do
  let here ← cursor
  if here + 1 < pattern.length then
    match (← look pattern here).hexValue? with
    | some high =>
      match (← look pattern (here + 1)).hexValue? with
      | some low =>
        move 2
        return .byte (UInt8.ofNat (high * 16 + low))
      | none => refuse .badEscape start
    | none => refuse .badEscape start
  else refuse .badEscape start

/-- An escape, behind its backslash. -/
def escape (inBrackets : Bool) : Descent Atom := do
  let start := (← cursor) - 1
  if ← atEnd pattern then refuse .badEscape start
  else
    let b ← take pattern
    match b.toChar with
    | 'f' => return .byte 0x0c
    | 'n' => return .byte 0x0a
    | 'r' => return .byte 0x0d
    | 't' => return .byte 0x09
    | 'v' => return .byte 0x0b
    | '0' => return .byte 0x00
    | 'c' => letter pattern start
    | 'x' => hexadecimal pattern start
    | 'd' => return .set .digits
    | 'D' => return .set ByteSet.digits.invert
    | 's' => return .set .spaces
    | 'S' => return .set ByteSet.spaces.invert
    | 'w' => return .set .words
    | 'W' => return .set ByteSet.words.invert
    | 'b' => return if inBrackets then .byte 0x08 else .anchor .wordBoundary
    | 'B' =>
      if inBrackets then unnamed pattern inBrackets start b else return .anchor .nonWordBoundary
    | _ => unnamed pattern inBrackets start b

/-! ### Bracket expressions -/

/-- A byte or an escape between brackets. What is no byte is taken for a set. -/
def member : Descent BracketMember := do
  if (← peek pattern).toChar == '\\' then
    move 1
    match ← escape pattern true with
    | .byte value => return .byte value
    | .set members => return .set members
    | _ => return .set ⟨[], false⟩
  else return .byte (← take pattern)

/-- Whether a minus is next that joins the member before it to the member behind it. -/
def joins : Descent Bool := do
  if ← ahead pattern (·.toChar == '-') then
    let next := (← cursor) + 1
    if next < pattern.length then return (← look pattern next).toChar != ']' else return false
  else return false

/-- The upper end of a range, behind the minus, in the bracket expression that begins at the offset
`opening`. -/
def range (opening : Nat) (low : Byte) : Descent (List ByteRange) := do
  match ← member pattern with
  | .set _ => refuse .badBracketExpression opening
  | .byte high =>
    if high.toInt8 < low.toInt8 then refuse .badBracketExpression opening
    else return [.ofBytes low high]

/-- A member or a range. -/
def item (opening : Nat) : Descent (List ByteRange) := do
  let first ← member pattern
  if ← joins pattern then
    match first with
    | .set _ => refuse .badBracketExpression opening
    | .byte low =>
      move 1
      range pattern opening low
  else return first.ranges

/-- Items up to the closing bracket or the end of the pattern, behind those that have been read. -/
def Source.items (pattern : Source) (opening : Nat) (ranges : List ByteRange) :
    Descent (List ByteRange) := do
  if ← ahead pattern (·.toChar != ']') then
    let start ← cursor
    let found ← item pattern opening
    round start
    pattern |>.items opening (found ++ ranges)
  else return ranges
partial_fixpoint

/-- A bracket expression, from its opening bracket on. -/
def brackets : Descent ByteSet := do
  let opening ← cursor
  move 1
  let negated ← skip pattern (·.toChar == '^')
  let ranges ← pattern.items opening []
  if ← atEnd pattern then refuse .badBracketExpression opening
  else
    move 1
    return ⟨ByteRange.normalize ranges, negated⟩

/-! ### Quantifiers -/

/-- The digits of a count, the first of which has to be there. -/
def Source.digits (pattern : Source) (number : Nat) : Descent Nat := do
  let start ← cursor
  let digit ← take pattern
  let longer := number * 10 + digit.digitValue
  if maxRepeatCount < longer then failure
  else
    round start
    if ← ahead pattern Byte.isDigit then pattern |>.digits longer else return longer
partial_fixpoint

def count : Descent Nat := do
  if ← ahead pattern Byte.isDigit then pattern.digits 0 else failure

/-- The upper bound in braces, behind the comma. -/
def upper (min : Nat) : Descent (Nat × Option Nat) := do
  if ← skip pattern (·.toChar == '}') then return (min, none)
  else
    let max ← count pattern
    if ← ahead pattern (·.toChar == '}') then
      if min ≤ max then
        move 1
        return (min, some max)
      else failure
    else failure

/-- Bounds in braces, behind the opening brace. Why they fail is not noted here. -/
def braces : Descent (Nat × Option Nat) := do
  let min ← count pattern
  if ← atEnd pattern then failure
  else
    match (← peek pattern).toChar with
    | '}' =>
      move 1
      return (min, some min)
    | ',' =>
      move 1
      upper pattern min
    | _ => failure

def bounds : Descent (Nat × Option Nat) := do
  let start ← cursor
  match (← take pattern).toChar with
  | '*' => return (0, none)
  | '+' => return (1, none)
  | '?' => return (0, some 1)
  | _ => braces pattern <|> refuse .badBraceExpression start

/-- A quantifier, the first byte of which has to be there. -/
def quantifier : Descent Quantifier := do
  let (min, max) ← bounds pattern
  let reluctant ← skip pattern (·.toChar == '?')
  return ⟨min, max, !reluctant⟩

/-! ### Operands -/

/-- Numbers a group that captures. -/
def capturing : Descent (Option Nat) := do
  modify fun here => { here with groups := here.groups + 1 }
  return some (← get).groups

/-- The question mark and the colon of a group that does not capture, which begins at the offset
`start`. -/
def noncapturing (start : Nat) : Descent (Option Nat) := do
  move 1
  if ← atEnd pattern then refuse .missingParen start
  else if (← take pattern).toChar == ':' then return none
  else refuse .unsupportedFeature start

/-- An opening parenthesis and what belongs to it. -/
def opening : Descent (Option Nat) := do
  let start ← cursor
  move 1
  if ← atEnd pattern then refuse .missingParen start
  else if (← peek pattern).toChar != '?' then capturing
  else noncapturing pattern start

/-- Where an operand should begin, inside so many groups, there is none. Outside of all groups a
closing parenthesis is to blame. -/
def noOperand (depth : Nat) : Descent Construct := do
  if depth = 0 then
    if ← ahead pattern (·.toChar == ')') then refuse .missingParen (← cursor)
    else refuse .emptyOperand (← cursor)
  else refuse .emptyOperand (← cursor)

/-- An atom without parentheses. The next byte has to be there. -/
def leaf : Descent Construct := do
  let start ← cursor
  let b ← peek pattern
  match b.toChar with
  | '[' => return .atom start (.set (← brackets pattern))
  | '\\' =>
    move 1
    return .atom start (← escape pattern false)
  | '.' =>
    move 1
    return .atom start .any
  | '^' =>
    move 1
    return .atom start (.anchor .textBegin)
  | '$' =>
    move 1
    return .atom start (.anchor .textEnd)
  | _ =>
    if b.isQuantifier then refuse .nothingToRepeat start
    else
      move 1
      return .atom start (.byte b)

/-! The procedures below are inside so many groups as `depth` says. A list of operands or of
alternatives that has come to an end with a single member is that member. -/

mutual

/-- Alternatives up to a closing parenthesis or the end of the pattern. -/
def Source.alternation (pattern : Source) (depth : Nat) : Descent Construct := do
  let start ← cursor
  let first ← pattern |>.concatenation depth
  pattern |>.alternatives depth start [] first
partial_fixpoint

/-- Further alternatives, behind those that have been read from the offset `start` on. -/
def Source.alternatives (pattern : Source) (depth start : Nat) (before : List Construct)
    (last : Construct) : Descent Construct := do
  if ← ahead pattern (·.toChar == '|') then
    let bar ← cursor
    move 1
    let next ← pattern |>.concatenation depth
    round bar
    pattern |>.alternatives depth start (last :: before) next
  else if before.isEmpty then return last
  else return .alternation start (last :: before).reverse
partial_fixpoint

/-- Operands up to a bar, a closing parenthesis or the end of the pattern. -/
def Source.concatenation (pattern : Source) (depth : Nat) : Descent Construct := do
  let start ← cursor
  match ← pattern |>.operands depth [] with
  | [] => noOperand pattern depth
  | [only] => return only
  | last :: before => return .concatenation start (last :: before).reverse
partial_fixpoint

/-- Further operands, in front of those that have been read. -/
def Source.operands (pattern : Source) (depth : Nat) (before : List Construct) :
    Descent (List Construct) := do
  if ← ahead pattern fun b => b.toChar != '|' && b.toChar != ')' then
    let start ← cursor
    let operand ← pattern |>.repetition depth
    round start
    pattern |>.operands depth (operand :: before)
  else return before
partial_fixpoint

/-- An atom and a quantifier, if there is one behind it. -/
def Source.repetition (pattern : Source) (depth : Nat) : Descent Construct := do
  let operand ← pattern |>.atom depth
  if ← ahead pattern Byte.isQuantifier then
    if operand.isAnchor then refuse .nothingToRepeat (← cursor)
    else
      let times ← quantifier pattern
      if ← ahead pattern Byte.isQuantifier then refuse .nothingToRepeat (← cursor)
      else return .repetition operand.position operand times
  else return operand
partial_fixpoint

def Source.atom (pattern : Source) (depth : Nat) : Descent Construct := do
  if (← peek pattern).toChar == '(' then pattern |>.group depth else leaf pattern
partial_fixpoint

/-- A group, from its opening parenthesis on. -/
def Source.group (pattern : Source) (depth : Nat) : Descent Construct := do
  let start ← cursor
  let index ← opening pattern
  if depth = maxNesting then refuse .nestingTooDeep start
  else
    let body ← pattern |>.alternation (depth + 1)
    if ← ahead pattern (·.toChar == ')') then
      move 1
      return .group start index body
    else refuse .missingParen start
partial_fixpoint

end

/-- A whole pattern. Only a parenthesis that closes no group can be left. -/
def whole (pattern : Source) : Descent Construct := do
  if pattern.isEmpty then refuse .emptyPattern 0
  else
    let root ← pattern.alternation 0
    if (← cursor) = pattern.length then return root else refuse .missingParen (← cursor)

end Descent

/-- Reads a pattern by recursive descent: its construct, if it has one, how far the descent came,
and the trace of it. -/
def descend (pattern : Bytes) : Option ((Option Construct × Standing) × List Event) :=
  (Descent.whole pattern).run ⟨0, 0, none⟩ []

end RegexSearch
