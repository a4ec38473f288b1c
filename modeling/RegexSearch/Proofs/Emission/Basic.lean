import RegexSearch.Error
import RegexSearch.Pattern.Construct
import RegexSearch.Program.Lowering

/-!
Writing a program one instruction after the other. A branch that leads forward is written before its
target is reached; the target is left open, and patched as soon as it is known. Of a split, one of
the two targets is left open: the way out, which comes second if the split belongs to a greedy
repetition and first if it belongs to a lazy one. All ways out of an alternation or of a counted
repetition are patched together, when its end has been reached.

Writing fails at a counted repetition that is too expensive to be written out. The reason is noted,
and nothing is written behind it.
-/

namespace RegexSearch

/-- An instruction that has been written. Targets may still be open. -/
inductive Sketch where
  | split (preferred other : Option Nat)
  | jump (target : Option Nat)
  | plain (instr : Instr)
  deriving DecidableEq, Repr

namespace Sketch

/-- An instruction with all of its targets. -/
def ofInstr : Instr → Sketch
  | .split preferred other => split (some preferred) (some other)
  | .jump target => jump (some target)
  | instr => plain instr

/-- A split whose way out is open. -/
def openSplit (greedy : Bool) (body : Nat) : Sketch :=
  if greedy then split (some body) none else split none (some body)

/-- What stands in a program for an open target, which no instruction has. -/
def unresolved : Nat := UInt64.size - 1

/-- The instruction that has been written. -/
def instr : Sketch → Instr
  | split preferred other => .split (preferred.getD unresolved) (other.getD unresolved)
  | jump target => .jump (target.getD unresolved)
  | plain instr => instr

/-- Sets the open target. -/
def patch (target : Nat) : Sketch → Sketch
  | split none other => split (some target) other
  | split (some preferred) _ => split (some preferred) (some target)
  | jump _ => jump (some target)
  | plain instr => plain instr

end Sketch

/-- How far a program has been written, and the reason if it cannot be. -/
structure Draft where
  code : Array Sketch
  sets : Array ByteSet
  loops : Nat
  failure : Option Error
  deriving DecidableEq, Repr

namespace Draft

def empty : Draft := ⟨#[], #[], 0, none⟩

/-- Sets the open target of the instruction at `pc`. -/
def patch (draft : Draft) (pc target : Nat) : Draft :=
  { draft with code := draft.code.modify pc (Sketch.patch target) }

/-- The program that has been written, with so many capturing groups. -/
def program (draft : Draft) (groups : Nat) : Program :=
  ⟨draft.code.map Sketch.instr, draft.sets, groups, draft.loops⟩

end Draft

/-- A part of writing, which may fail. -/
abbrev Emission (α : Type) : Type := OptionT (StateM Draft) α

namespace Emission

/-- The place of the next instruction. -/
def here : Emission Nat :=
  return (← get).code.size

/-- Writes an instruction and tells its place. -/
def emit (sketch : Sketch) : Emission Nat := do
  let pc ← here
  modify fun draft => { draft with code := draft.code.push sketch }
  return pc

/-- Writes an instruction with all of its targets. -/
def write (instr : Instr) : Emission Unit := do
  let _ ← emit (.ofInstr instr)

def patch (pc target : Nat) : Emission Unit :=
  modify (·.patch pc target)

/-- Patches these instructions, one after the other. -/
def patchAll (target : Nat) : List Nat → Emission Unit
  | [] => return ()
  | pc :: pcs => do
    patch pc target
    patchAll target pcs

/-- Notes that the repetition at an offset is too expensive, and fails. -/
def refuse (position : Nat) : Emission Unit := do
  modify fun draft => { draft with failure := some ⟨.expensiveUnroll, position⟩ }
  failure

/-- Enters a set into the table and tells its index. -/
def enter (members : ByteSet) : Emission Nat := do
  let index := (← get).sets.size
  modify fun draft => { draft with sets := draft.sets.push members }
  return index

/-- Takes the next loop slot. -/
def takeSlot : Emission Nat := do
  let slot := (← get).loops
  modify fun draft => { draft with loops := draft.loops + 1 }
  return slot

/-- Writes a split whose body begins at the next instruction. -/
def loopSplit (greedy : Bool) : Emission Nat := do
  let pc ← here
  emit (.openSplit greedy (pc + 1))

/-- Writes what `body` writes behind a split, and a jump behind it. The split leads behind the jump,
whose own target stays open. -/
def alternative (body : Emission Unit) : Emission Nat := do
  let split ← loopSplit true
  body
  let exit ← emit (.jump none)
  let behind ← here
  patch split behind
  return exit

def atom : Atom → Emission Unit
  | .byte value => write (.byte value)
  | .set members => do
    let index ← enter members
    write (.set index)
  | .any => write .any
  | .backref group => write (.backref group)
  | .anchor kind => write (.assert kind)

/-! Repetitions of what `body` writes. -/

section Repetition

variable (body : Emission Unit)

def repeated : Nat → Emission Unit
  | 0 => return ()
  | count + 1 => do
    body
    repeated count

/-- So many optional rounds, behind those that have the given ways out. -/
def optional (greedy : Bool) : Nat → List Nat → Emission Unit
  | 0, exits => do
    let stop ← here
    patchAll stop exits
  | count + 1, exits => do
    let exit ← loopSplit greedy
    body
    optional greedy count (exits ++ [exit])

/-- A loop that is tested in front of its body, with a mark and a check if it has a slot. -/
def star (greedy : Bool) (slot : Option Nat) : Emission Unit := do
  let split ← loopSplit greedy
  match slot with
  | none => body
  | some slot =>
    write (.mark slot)
    body
    write (.check slot)
  write (.jump split)
  let stop ← here
  patch split stop

/-- A loop that is tested behind its body. All of its targets are known when they are written. -/
def plus (greedy : Bool) (slot : Option Nat) : Emission Unit := do
  let start ← here
  match slot with
  | none =>
    body
    let pc ← here
    write (.loopSplit greedy start (pc + 1))
  | some slot =>
    write (.mark slot)
    body
    let pc ← here
    write (.loopSplit greedy (pc + 1) (pc + 3))
    write (.check slot)
    write (.jump start)

/-- A repetition without bound. The slot is taken before the body is written. -/
def unbounded (times : Quantifier) (guarded : Bool) : Emission Unit := do
  let slot ← if guarded then some <$> takeSlot else pure none
  match times.min with
  | 0 => star body times.greedy slot
  | before + 1 =>
    repeated body before
    plus body times.greedy slot

/-- A repetition that is written out. -/
def bounded (times : Quantifier) (max : Nat) : Emission Unit := do
  repeated body times.min
  optional body times.greedy (max - times.min) []

end Repetition

end Emission

namespace Construct

mutual

/-- Writes a construct, unless a counted repetition in it is too expensive. -/
def emit (limit : Nat) : Construct → Emission Unit
  | atom _ a => Emission.atom a
  | group _ none body => body.emit limit
  | group _ (some index) body => do
    Emission.write (.openGroup index)
    body.emit limit
    Emission.write (.closeGroup index)
  | concatenation _ items => emitItems limit items
  | alternation _ alternatives => emitAlternatives limit [] alternatives
  | repetition position body times =>
    if times.isCounted && (limit < body.cost.toNat || limit < (times.cost body.cost).toNat) then
      Emission.refuse position
    else
      match times.max with
      | none => Emission.unbounded (body.emit limit) times body.nullable
      | some max => Emission.bounded (body.emit limit) times max

def emitItems (limit : Nat) : List Construct → Emission Unit
  | [] => return ()
  | item :: items => do
    item.emit limit
    emitItems limit items

/-- Writes alternatives behind those that have the given ways out. There has to be a last one. -/
def emitAlternatives (limit : Nat) (exits : List Nat) : List Construct → Emission Unit
  | [] => failure
  | [last] => do
    last.emit limit
    let stop ← Emission.here
    Emission.patchAll stop exits
  | alternative :: next :: others => do
    let exit ← Emission.alternative (alternative.emit limit)
    emitAlternatives limit (exits ++ [exit]) (next :: others)

end

/-- Writes a whole program. -/
def emitWhole (limit : Nat) (root : Construct) : Emission Unit := do
  Emission.write (.openGroup 0)
  root.emit limit
  Emission.write (.closeGroup 0)
  Emission.write .accept

end Construct

/-- A program without instructions. -/
def Program.empty : Program := ⟨#[], #[], 0, 0⟩

/-- Writes the program of a construct. If writing fails, the reason is noted and the program is
empty. -/
def Construct.lower (limit : Nat) (root : Construct) (groups : Nat) : Option Error × Program :=
  match (root.emitWhole limit).run .empty with
  | (some _, draft) => (draft.failure, draft.program groups)
  | (none, draft) => (draft.failure, .empty)

end RegexSearch
