import RegexSearch.Anchor
import RegexSearch.ByteSet

/-!
Programs of the matching machine: a list of instructions that refer to each other by position,
and a table of the sets that they refer to by index.
-/

namespace RegexSearch

inductive Instr where
  /-- Consume exactly this byte. -/
  | byte (value : Byte)
  /-- Consume a byte of the set with this index. -/
  | set (index : Nat)
  /-- Consume any byte but a newline. -/
  | any
  /-- Continue at the first target, and at the second one if that fails. -/
  | split (preferred other : Nat)
  | jump (target : Nat)
  /-- Note where a group begins. Its capture changes only when it closes. -/
  | openGroup (group : Nat)
  /-- Capture the text since the group was opened. -/
  | closeGroup (group : Nat)
  /-- Consume the text that a group has captured. -/
  | backref (group : Nat)
  | assert (anchor : Anchor)
  /-- Note where an iteration begins. -/
  | mark (slot : Nat)
  /-- Fail unless the iteration has consumed something since its mark. -/
  | check (slot : Nat)
  /-- The whole pattern has matched. -/
  | accept
  deriving DecidableEq, Repr

/-- A program. Group zero is the whole match, and `groups` counts the other groups that capture;
`loops` counts the slots for marks. -/
structure Program where
  code : Array Instr
  sets : Array ByteSet
  groups : Nat
  loops : Nat
  deriving DecidableEq, Repr

namespace Program

/-- The number of instructions. -/
def size (program : Program) : Nat :=
  program.code.size

/-- The number of registers for the ends of captures, two for each group and the whole match. -/
def registerCount (program : Program) : Nat :=
  2 * (program.groups + 1)

/-- Whether every match has to start at offset zero, because the program tests for the beginning
of the text before anything else. Its very first instruction opens the whole match. -/
def anchoredAtBegin (program : Program) : Bool :=
  program.code[1]? == some (.assert .textBegin)

end Program

end RegexSearch
