import RegexSearch.Match
import RegexSearch.Program.Basic

/-!
The matching machine. A thread runs through a program over a text; where it splits, the branch
that is not taken is put on a log, and so is every value that the thread overwrites. When the
thread fails, the log is unwound: overwritten values are put back until a branch is found to
resume. The first thread that reaches the end of the program wins, so an earlier branch is
preferred to a later one, whatever they match.

Every executed instruction is one step, and so is resuming a branch.
-/

namespace RegexSearch

/-- What a thread knows: the next instruction, the offset in the text, its registers, where each
group was opened last, and where the current round of each loop began. A group has two registers,
one for the beginning and one for the end of what it has captured. -/
structure Thread where
  pc : Nat
  offset : Nat
  registers : Array (Option Nat)
  opens : Array (Option Nat)
  marks : Array (Option Nat)
  deriving DecidableEq, Repr

namespace Thread

/-- A thread at the beginning of a program, which has captured nothing. -/
def start (program : Program) (offset : Nat) : Thread where
  pc := 0
  offset
  registers := .replicate program.registerCount none
  opens := .replicate (program.groups + 1) none
  marks := .replicate program.loops none

/-- The thread at the next instruction. -/
def next (thread : Thread) : Thread :=
  { thread with pc := thread.pc + 1 }

def goto (thread : Thread) (pc : Nat) : Thread :=
  { thread with pc }

/-- The thread at the next instruction, so many bytes further on. -/
def consume (thread : Thread) (count : Nat) : Thread :=
  { thread with pc := thread.pc + 1, offset := thread.offset + count }

def register (thread : Thread) (index : Nat) : Option Nat :=
  thread.registers.getD index none

def openedAt (thread : Thread) (group : Nat) : Option Nat :=
  thread.opens.getD group none

def markedAt (thread : Thread) (slot : Nat) : Option Nat :=
  thread.marks.getD slot none

def setRegister (thread : Thread) (index : Nat) (offset : Option Nat) : Thread :=
  { thread with registers := thread.registers.setIfInBounds index offset }

def setOpened (thread : Thread) (group : Nat) (offset : Option Nat) : Thread :=
  { thread with opens := thread.opens.setIfInBounds group offset }

def setMark (thread : Thread) (slot : Nat) (offset : Option Nat) : Thread :=
  { thread with marks := thread.marks.setIfInBounds slot offset }

/-- What a group has captured, if both its registers are set. -/
def capture (thread : Thread) (group : Nat) : Option Span :=
  Span.between? (thread.register (2 * group)) (thread.register (2 * group + 1))

/-- The thread with a group that has captured the text since it was opened. -/
def close (thread : Thread) (group : Nat) : Thread :=
  (thread.setRegister (2 * group) (thread.openedAt group)).setRegister (2 * group + 1)
    (some thread.offset)

/-- What stands in a register that has not been set. -/
def unset : Nat := UInt64.size - 1

/-- What has been captured, in registers that are taken two by two. -/
def spans : List (Option Nat) → List (Option Span)
  | start :: stop :: rest => Span.between? start stop :: spans rest
  | _ => []

/-- The match that an accepting thread has found. The whole match is group zero, and its ends are
taken from its registers as they stand there. -/
def toMatch (thread : Thread) : Match where
  span := ⟨(thread.register 0).getD unset, (thread.register 1).getD unset⟩
  groups := spans thread.registers.toList

end Thread

/-- An entry of the log: a branch to resume, or a value to put back. -/
inductive Record where
  | branch (pc offset : Nat)
  | register (index : Nat) (before : Option Nat)
  | opened (group : Nat) (before : Option Nat)
  | mark (slot : Nat) (before : Option Nat)
  deriving DecidableEq, Repr

/-- What an instruction does to a thread. -/
inductive Effect where
  /-- The thread goes on, after these records have been put on the log. -/
  | proceed (thread : Thread) (records : List Record)
  | fail
  | accept
  deriving DecidableEq, Repr

/-- A state of the machine. -/
inductive Config where
  /-- The thread is about to execute its next instruction. -/
  | running (thread : Thread) (log : List Record)
  /-- The thread has been taken from the log and is about to be resumed. -/
  | resuming (thread : Thread) (log : List Record)
  deriving DecidableEq, Repr

/-- The state after a step, or the answer that the run ends with. -/
inductive Next where
  | continues (config : Config)
  | halts (answer : Option Match)
  deriving DecidableEq, Repr

/-- Puts back overwritten values up to the latest branch, which the thread then continues at.
There is no such branch if everything has been tried. -/
def unwind (thread : Thread) : List Record → Option (Thread × List Record)
  | [] => none
  | .branch pc offset :: log => some ({ thread with pc, offset }, log)
  | .register index before :: log => unwind (thread.setRegister index before) log
  | .opened group before :: log => unwind (thread.setOpened group before) log
  | .mark slot before :: log => unwind (thread.setMark slot before) log

/-- What a run works on. If the end is anchored, only a match up to the end of the text counts. -/
structure Machine where
  program : Program
  text : Text
  anchoredEnd : Bool
  deriving DecidableEq, Repr

namespace Machine

/-- Consumes the next byte if there is one and it satisfies a condition. -/
@[inline]
def consumeIf (machine : Machine) (thread : Thread) (condition : Byte → Bool) : Effect :=
  match machine.text[thread.offset]? with
  | some b => if condition b then .proceed (thread.consume 1) [] else .fail
  | none => .fail

/-- Whether the bytes of a span stand in the text at an offset too. -/
def repeatsAt (machine : Machine) (span : Span) (offset : Nat) : Bool :=
  Span.bytes ⟨offset, offset + span.length⟩ machine.text == span.bytes machine.text

/-- What an instruction does. A group that has captured nothing yet does not match as a
backreference, not even as the empty text. -/
@[inline]
def effect (machine : Machine) (thread : Thread) : Instr → Effect
  | .byte value => machine.consumeIf thread (· == value)
  | .set index =>
    machine.consumeIf thread fun b => machine.program.sets[index]?.any (·.contains b)
  | .any => machine.consumeIf thread (!·.isNewline)
  | .split preferred other => .proceed (thread.goto preferred) [.branch other thread.offset]
  | .jump target => .proceed (thread.goto target) []
  | .openGroup group =>
    let record := .opened group (thread.openedAt group)
    .proceed (thread.next.setOpened group (some thread.offset)) [record]
  | .closeGroup group =>
    let start := .register (2 * group) (thread.register (2 * group))
    let stop := .register (2 * group + 1) (thread.register (2 * group + 1))
    .proceed (thread.next.close group) [stop, start]
  | .backref group =>
    match thread.capture group with
    | none => .fail
    | some span =>
      if machine.repeatsAt span thread.offset then .proceed (thread.consume span.length) []
      else .fail
  | .assert anchor =>
    if anchor.holds machine.text thread.offset then .proceed thread.next [] else .fail
  | .mark slot =>
    let record := .mark slot (thread.markedAt slot)
    .proceed (thread.next.setMark slot (some thread.offset)) [record]
  | .check slot =>
    if thread.markedAt slot == some thread.offset then .fail else .proceed thread.next []
  | .accept =>
    if machine.anchoredEnd && thread.offset != machine.text.size then .fail else .accept

/-- Gives up a thread and turns to the latest branch on the log. -/
def backtrack (thread : Thread) (log : List Record) : Next :=
  match unwind thread log with
  | some (resumed, rest) => .continues (.resuming resumed rest)
  | none => .halts none

/-- One step. A thread that has left the program fails. -/
def step (machine : Machine) : Config → Next
  | .resuming thread log => .continues (.running thread log)
  | .running thread log =>
    match machine.program.code[thread.pc]? with
    | none => backtrack thread log
    | some instr =>
      match machine.effect thread instr with
      | .proceed thread records => .continues (.running thread (records ++ log))
      | .fail => backtrack thread log
      | .accept => .halts (some thread.toMatch)

/-- The state in which an attempt at an offset begins. -/
def initial (machine : Machine) (start : Nat) : Config :=
  .running (.start machine.program start) []

end Machine

end RegexSearch
