import RegexSearch.Pattern.Cost
import RegexSearch.Pattern.Reader
import RegexSearch.Program.Basic

/-!
From a pattern tree to a program. The space that a tree takes, in instructions, set table entries
and loop slots, depends on the tree alone, so each part is laid out at a known place and every
branch target is known when it is written:

* an alternation splits to its alternatives, and the earlier ones jump behind the last;
* a repetition without bound is a loop, tested in front of its body if no round is required and
  behind its last required round otherwise;
* a counted repetition is written out, with one split in front of each optional round.

If the body of a loop may match nothing, its rounds are marked and checked, so that a round which
consumes nothing is abandoned instead of repeated forever. A repetition writes its body, with the
sets and slots in it, as often as `Quantifier.copies` says.
-/

namespace RegexSearch

/-- How many copies of the body of a repetition are written. The body of a loop serves for its
last required round too. -/
def Quantifier.copies (times : Quantifier) : Nat :=
  match times.max with
  | none => Max.max times.min 1
  | some max => times.min + (max - times.min)

namespace Tree

/-- The number of instructions that a tree takes. -/
def codeSize : Tree → Nat
  | atom .. => 1
  | group _ index body => body.codeSize + if index.isSome then 2 else 0
  | cat first rest => first.codeSize + rest.codeSize
  | alt first rest => first.codeSize + 2 + rest.codeSize
  | rep body times =>
    match times.max, times.min with
    | none, 0 => body.codeSize + 2 + if body.nullable then 2 else 0
    | none, min => min * body.codeSize + 1 + if body.nullable then 3 else 0
    | some max, min => min * body.codeSize + (max - min) * (body.codeSize + 1)

/-- The number of loop slots that a tree takes: one for each loop whose body is nullable. -/
def loopCount : Tree → Nat
  | atom .. => 0
  | group _ _ body => body.loopCount
  | cat first rest => first.loopCount + rest.loopCount
  | alt first rest => first.loopCount + rest.loopCount
  | rep body times =>
    times.copies * body.loopCount + if times.max.isNone && body.nullable then 1 else 0

/-- The sets that a tree refers to, in the order in which its code refers to them. -/
def sets : Tree → List ByteSet
  | atom _ (.set members) => [members]
  | atom .. => []
  | group _ _ body => body.sets
  | cat first rest => first.sets ++ rest.sets
  | alt first rest => first.sets ++ rest.sets
  | rep body times => (List.replicate times.copies body.sets).flatten

end Tree

/-- Where code is laid out: the first free instruction, set table entry and loop slot. -/
structure Place where
  pc : Nat
  set : Nat
  slot : Nat
  deriving DecidableEq, Repr

namespace Place

/-- The place behind so many instructions that take no other space. -/
def skip (here : Place) (count : Nat) : Place :=
  { here with pc := here.pc + count }

/-- The place behind the code of a tree. -/
def after (here : Place) (tree : Tree) : Place :=
  ⟨here.pc + tree.codeSize, here.set + tree.sets.length, here.slot + tree.loopCount⟩

end Place

/-- The instruction for an atom. A set has just been entered into the table. -/
def Atom.instr (here : Place) : Atom → Instr
  | byte value => .byte value
  | set _ => .set here.set
  | any => .any
  | backref group => .backref group
  | anchor kind => .assert kind

/-- A split that prefers the body if the repetition is greedy and the way out if it is lazy. -/
def Instr.loopSplit (greedy : Bool) (body exit : Nat) : Instr :=
  if greedy then .split body exit else .split exit body

/-! The layouts of a repetition. `emit` writes the body at a place, and `behind` is the place
behind the body. -/

section Repetition

variable (emit : Place → List Instr) (behind : Place → Place)

/-- So many required rounds, one after the other. -/
def requiredRounds : Nat → Place → List Instr
  | 0, _ => []
  | count + 1, here => emit here ++ requiredRounds count (behind here)

/-- The place behind so many required rounds. -/
def behindRounds : Nat → Place → Place
  | 0, here => here
  | count + 1, here => behindRounds count (behind here)

/-- So many optional rounds. Each may leave to the common `exit` instead. -/
def optionalRounds (greedy : Bool) (exit : Nat) : Nat → Place → List Instr
  | 0, _ => []
  | count + 1, here =>
    Instr.loopSplit greedy (here.pc + 1) exit :: emit (here.skip 1) ++
      optionalRounds greedy exit count (behind (here.skip 1))

/-- A loop that may be left before its first round. -/
def starLoop (greedy guarded : Bool) (here : Place) : List Instr :=
  if guarded then
    let body : Place := ⟨here.pc + 2, here.set, here.slot + 1⟩
    let last := (behind body).pc
    Instr.loopSplit greedy (here.pc + 1) (last + 2) :: .mark here.slot :: emit body ++
      [.check here.slot, .jump here.pc]
  else
    let last := (behind (here.skip 1)).pc
    Instr.loopSplit greedy (here.pc + 1) (last + 1) :: emit (here.skip 1) ++ [.jump here.pc]

/-- A loop that may be left after its first round. The mark of a guarded one is in `slot`, which
lies before the slots of its body. -/
def plusLoop (greedy guarded : Bool) (slot : Nat) (here : Place) : List Instr :=
  if guarded then
    let last := (behind (here.skip 1)).pc
    .mark slot :: emit (here.skip 1) ++
      [Instr.loopSplit greedy (last + 1) (last + 3), .check slot, .jump here.pc]
  else
    let last := (behind here).pc
    emit here ++ [Instr.loopSplit greedy here.pc (last + 1)]

/-- A repetition whose body is `guarded` if it may match nothing. -/
def repetition (times : Quantifier) (guarded : Bool) (here : Place) : List Instr :=
  match times.max, times.min with
  | none, 0 => starLoop emit behind times.greedy guarded here
  | none, before + 1 =>
    let first := if guarded then { here with slot := here.slot + 1 } else here
    requiredRounds emit behind before first ++
      plusLoop emit behind times.greedy guarded here.slot (behindRounds behind before first)
  | some max, min =>
    let optional := behindRounds behind min here
    let size := (behind (optional.skip 1)).pc - optional.pc
    requiredRounds emit behind min here ++
      optionalRounds emit behind times.greedy (optional.pc + (max - min) * size) (max - min)
        optional

end Repetition

/-- The code of a tree at a place. -/
def Tree.code : Tree → Place → List Instr
  | atom _ a, here => [a.instr here]
  | group _ (some index) body, here =>
    .openGroup index :: body.code (here.skip 1) ++ [.closeGroup index]
  | group _ none body, here => body.code here
  | cat first rest, here => first.code here ++ rest.code (here.after first)
  | alt first rest, here =>
    let left := here.skip 1
    let right := (left.after first).skip 1
    .split left.pc right.pc :: first.code left ++
      .jump (right.pc + rest.codeSize) :: rest.code right
  | rep body times, here =>
    repetition (fun place => body.code place) (·.after body) times body.nullable here

namespace Program

/-- The code of a whole pattern: its match is captured as group zero. -/
def wrap (code : List Instr) : List Instr :=
  .openGroup 0 :: code ++ [.closeGroup 0, .accept]

/-- The program that matches a tree with so many capturing groups. -/
def ofTree (tree : Tree) (groups : Nat) : Program where
  code := (wrap (tree.code ⟨1, 0, 0⟩)).toArray
  sets := tree.sets.toArray
  groups
  loops := tree.loopCount

/-- The program for a tree, unless a repetition in it is too expensive to write out. -/
def lower (maxUnroll : Nat) (tree : Tree) (groups : Nat) : Except Error Program :=
  match tree.firstExpensive? maxUnroll with
  | some position => .error ⟨.expensiveUnroll, position⟩
  | none => .ok (ofTree tree groups)

end Program

/-- A pattern on its way to a program. The tree is there as soon as the pattern has been read,
even if it is too expensive to become a program. -/
structure Compilation where
  tree : Option Tree
  program : Except Error Program

/-- Reads a pattern and turns its tree into a program. -/
def compilePattern (maxUnroll : Nat) (pattern : Bytes) : Compilation :=
  let reading := readPattern pattern
  match reading.result with
  | .error error => ⟨none, .error error⟩
  | .ok tree => ⟨some tree, Program.lower maxUnroll tree reading.groups⟩

end RegexSearch
