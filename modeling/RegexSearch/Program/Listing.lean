import RegexSearch.Program.Basic

/-!
Programs in readable form: a heading with the counts of groups and loops, then one line for each
instruction, with the set spelled out behind an instruction that refers to one.
-/

namespace RegexSearch

/-- The instruction with its operands. Opening a group saves its first register, and closing it
saves its second one. -/
def Instr.shown : Instr → Bytes
  | byte value => ascii "char '" ++ value.shown ++ ascii "'"
  | set index => ascii "class #" ++ decimal index
  | any => ascii "any"
  | split preferred other => ascii "split " ++ decimal preferred ++ ascii ", " ++ decimal other
  | jump target => ascii "jump " ++ decimal target
  | openGroup group => ascii "save " ++ decimal (2 * group)
  | closeGroup group => ascii "save " ++ decimal (2 * group + 1)
  | backref group => ascii "backref " ++ decimal group
  | assert anchor => ascii "assert " ++ anchor.shown
  | mark slot => ascii "mark " ++ decimal slot
  | check slot => ascii "check " ++ decimal slot
  | accept => ascii "accept"

namespace Program

/-- The set that an instruction refers to, if it refers to one of the table. -/
def setOf? (program : Program) : Instr → Option ByteSet
  | .set index => program.sets[index]?
  | _ => none

/-- A number at the right end of a column of four bytes. -/
def column (n : Nat) : Bytes :=
  List.replicate (4 - (decimal n).length) ' '.toUInt8 ++ decimal n

/-- The line for the instruction at the position `pc`. -/
def line (program : Program) (pc : Nat) (instr : Instr) : Bytes :=
  column pc ++ ascii "  " ++ instr.shown ++
    (program.setOf? instr).elim [] (fun members => ascii " " ++ members.shown) ++ ascii "\n"

/-- The lines of instructions of which the first stands at the position `pc`. -/
def linesFrom (program : Program) (pc : Nat) : List Instr → Bytes
  | [] => []
  | instr :: rest => program.line pc instr ++ program.linesFrom (pc + 1) rest

def heading (program : Program) : Bytes :=
  ascii "; groups: " ++ decimal program.groups ++ ascii ", loops: " ++ decimal program.loops ++
    ascii "\n"

def listing (program : Program) : Bytes :=
  program.heading ++ program.linesFrom 0 program.code.toList

end Program

end RegexSearch
