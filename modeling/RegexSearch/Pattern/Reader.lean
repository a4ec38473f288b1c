import RegexSearch.Pattern.Bracket
import RegexSearch.Pattern.Quantifier

/-!
From a pattern to its tree, in one pass from the left. The reader keeps the alternatives of the
innermost group that is open and a stack of the groups around it; each operand that it meets is
put behind the operands before it, a quantifier takes back the last of them, and a closing
parenthesis turns what is open into one operand of the group around.

Reading stops at the first construct that cannot be read, and at the end of the pattern if an
operand or a closing parenthesis is missing there. The number of capturing groups opened so far
is reported in any case.
-/

namespace RegexSearch

/-- Groups may be open inside each other to this depth. -/
def maxNesting : Nat := 1000

/-- An alternation that is being read. Both lists hold the latest member first. -/
structure Level where
  /-- The alternatives that a bar has ended. -/
  alternatives : List Tree
  /-- The operands of the alternative being read. -/
  operands : List Tree
  deriving DecidableEq, Repr

namespace Level

def empty : Level := ⟨[], []⟩

def push (level : Level) (operand : Tree) : Level :=
  { level with operands := operand :: level.operands }

/-- The operands read since the last bar as one tree, if there is any. -/
def branch? (level : Level) : Option Tree :=
  match level.operands with
  | [] => none
  | last :: before => some (before.foldl (fun rest operand => .cat operand rest) last)

/-- All alternatives as one tree, if the last one has an operand. -/
def tree? (level : Level) : Option Tree :=
  level.branch?.map fun last =>
    level.alternatives.foldl (fun rest alternative => .alt alternative rest) last

/-- Ends the alternative being read, if it has an operand. -/
def bar? (level : Level) : Option Level :=
  level.branch?.map fun branch => ⟨branch :: level.alternatives, []⟩

end Level

/-- A group that has been opened, and the level that it will be an operand of. -/
structure Opening where
  position : Nat
  index : Option Nat
  outer : Level
  deriving DecidableEq, Repr

/-- What has been read of a pattern: the number of capturing groups opened, the level being read,
and the groups that are open, the innermost first. -/
structure Reader where
  groups : Nat
  level : Level
  openings : List Opening
  deriving DecidableEq, Repr

/-- Where reading stopped, and how many capturing groups had been opened by then. -/
structure Refusal where
  error : Error
  groups : Nat
  deriving DecidableEq, Repr

namespace Reader

def start : Reader := ⟨0, .empty, []⟩

def refuse {α : Type} (reader : Reader) (cause : Cause) (position : Nat) : Except Refusal α :=
  .error ⟨⟨cause, position⟩, reader.groups⟩

def push (reader : Reader) (operand : Tree) : Reader :=
  { reader with level := reader.level.push operand }

/-- Opens a group at the offset `position`, unless too many are open. -/
def openGroup (reader : Reader) (position : Nat) (index : Option Nat) : Except Refusal Reader :=
  if maxNesting ≤ reader.openings.length then reader.refuse .nestingTooDeep position
  else
    .ok { reader with
      level := .empty
      openings := ⟨position, index, reader.level⟩ :: reader.openings }

/-- Reads an opening parenthesis. A question mark behind it must be followed by a colon, and makes
the group one that does not capture; the other groups are numbered in the order of their opening
parentheses. -/
def readOpening (reader : Reader) (position : Nat) (rest : Bytes) :
    Except Refusal (Reader × Nat) :=
  match (rest.take 2).map Byte.toChar with
  | [] => reader.refuse .missingParen position
  | ['?'] => reader.refuse .missingParen position
  | ['?', ':'] => (reader.openGroup position none).map (·, 2)
  | '?' :: _ => reader.refuse .unsupportedFeature position
  | _ =>
    let numbered := { reader with groups := reader.groups + 1 }
    (numbered.openGroup position (some numbered.groups)).map (·, 0)

/-- Reads a closing parenthesis, which ends the innermost open group. -/
def readClosing (reader : Reader) (position : Nat) : Except Refusal (Reader × Nat) :=
  match reader.openings, reader.level.tree? with
  | [], _ => reader.refuse .missingParen position
  | _ :: _, none => reader.refuse .emptyOperand position
  | opening :: openings, some body =>
    let group := Tree.group opening.position opening.index body
    .ok ({ reader with level := opening.outer.push group, openings }, 0)

/-- Reads a bar, which ends an alternative. -/
def readBar (reader : Reader) (position : Nat) : Except Refusal (Reader × Nat) :=
  match reader.level.bar? with
  | none => reader.refuse .emptyOperand position
  | some level => .ok ({ reader with level }, 0)

/-- Reads a quantifier, which applies to the last operand. -/
def readRepetition (reader : Reader) (position : Nat) (b : Byte) (rest : Bytes) :
    Except Refusal (Reader × Nat) :=
  match reader.level.operands with
  | [] => reader.refuse .nothingToRepeat position
  | last :: before =>
    if last.isRepeatable then
      match readQuantifier b rest with
      | none => reader.refuse .badBraceExpression position
      | some (times, taken) =>
        let level := { reader.level with operands := .rep last times :: before }
        .ok ({ reader with level }, taken)
    else reader.refuse .nothingToRepeat position

/-- Reads a backslash and its escape. -/
def readBackslash (reader : Reader) (position : Nat) (rest : Bytes) :
    Except Refusal (Reader × Nat) :=
  match readEscape (.operand reader.groups) rest with
  | .error cause => reader.refuse cause position
  | .ok (atom, taken) => .ok (reader.push (.atom position atom), taken)

/-- Reads a bracket expression. -/
def readSet (reader : Reader) (position : Nat) (rest : Bytes) : Except Refusal (Reader × Nat) :=
  match readBrackets position rest with
  | .error error => reader.refuse error.cause error.position
  | .ok (set, behind) => .ok (reader.push (.atom position (.set set)), behind - (position + 1))

/-- Reads the construct that starts with the byte `b` at the offset `position`, and counts the
bytes that it takes from those behind. -/
def advance (reader : Reader) (position : Nat) (b : Byte) (rest : Bytes) :
    Except Refusal (Reader × Nat) :=
  match b.toChar with
  | '(' => reader.readOpening position rest
  | ')' => reader.readClosing position
  | '|' => reader.readBar position
  | '[' => reader.readSet position rest
  | '\\' => reader.readBackslash position rest
  | '.' => .ok (reader.push (.atom position .any), 0)
  | '^' => .ok (reader.push (.atom position (.anchor .textBegin)), 0)
  | '$' => .ok (reader.push (.atom position (.anchor .textEnd)), 0)
  | _ =>
    if b.isQuantifier then reader.readRepetition position b rest
    else .ok (reader.push (.atom position (.byte b)), 0)

/-- Reads to the end of the pattern. `skip` counts the bytes to pass over because the construct
before took them. -/
def readFrom (reader : Reader) : (skip position : Nat) → Bytes → Except Refusal Reader
  | _, _, [] => .ok reader
  | skip + 1, position, _ :: rest => reader.readFrom skip (position + 1) rest
  | 0, position, b :: rest =>
    match reader.advance position b rest with
    | .error refusal => .error refusal
    | .ok (next, taken) => next.readFrom taken (position + 1) rest

/-- The tree of a pattern that ends at the offset `position`, where no group may be open. -/
def finish (reader : Reader) (position : Nat) : Except Refusal Tree :=
  match reader.level.tree?, reader.openings with
  | none, _ => reader.refuse .emptyOperand position
  | some _, opening :: _ => reader.refuse .missingParen opening.position
  | some tree, [] => .ok tree

end Reader

/-- A pattern that has been read: its tree, or why it has none, and the number of capturing
groups that it opens. -/
structure Reading where
  groups : Nat
  result : Except Error Tree

/-- Reads a pattern. -/
def readPattern (pattern : Bytes) : Reading :=
  if pattern.isEmpty then ⟨0, .error ⟨.emptyPattern, 0⟩⟩
  else
    match Reader.start.readFrom 0 0 pattern with
    | .error refusal => ⟨refusal.groups, .error refusal.error⟩
    | .ok reader =>
      match reader.finish pattern.length with
      | .error refusal => ⟨refusal.groups, .error refusal.error⟩
      | .ok tree => ⟨reader.groups, .ok tree⟩

end RegexSearch
