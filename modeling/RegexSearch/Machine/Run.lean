import RegexSearch.Error
import RegexSearch.Machine.Basic

/-!
Runs of the matching machine. A run is given a number of steps, and ends with an answer or stops
where the steps are used up. An attempt without a limit is a run in stages, each of which is
given twice as many steps as the one before.

The number of stages depends on the number of threads that can occur. If a thread occurs again
while it is itself being tried, it occurs forever, because what a thread does depends on nothing
else; so in a run that ends, the threads that are being tried at the same time are distinct, and
a run that has not ended after all stages never ends.
-/

namespace RegexSearch

/-- How many steps an attempt may take. -/
inductive StepLimit where
  | unlimited
  | atMost (steps : Nat)
  deriving DecidableEq, Repr

/-- Zero stands for no limit. -/
def StepLimit.ofNat : Nat → StepLimit
  | 0 => unlimited
  | steps + 1 => atMost (steps + 1)

/-- Where a run has come to. -/
inductive Progress where
  /-- The run has ended with an answer, and so many of its steps are left. -/
  | halted (answer : Option Match) (left : Nat)
  /-- All steps are used up, and the run would go on from here. -/
  | paused (config : Config)
  deriving DecidableEq, Repr

namespace Machine

/-- Runs for so many steps. -/
def run (machine : Machine) : Nat → Config → Progress
  | 0, config => .paused config
  | steps + 1, config =>
    match machine.step config with
    | .halts answer => .halted answer steps
    | .continues next => machine.run steps next

/-- Runs in so many stages, the first of which has `steps` steps. -/
def runStages (machine : Machine) : (stages steps : Nat) → Config → Option (Option Match)
  | 0, _, _ => none
  | stages + 1, steps, config =>
    match machine.run steps config with
    | .halted answer _ => some answer
    | .paused next => machine.runStages stages (2 * steps) next

/-- A bound on the number of threads that can occur. A register, an opening and a mark are each an
offset of the text or absent, and there are two registers and an opening for every group; the
instruction is one of the program or a target outside of it. -/
def threadBound (machine : Machine) : Nat :=
  let offsets := machine.text.size + 2
  let program := machine.program
  (3 * program.size + 1) * offsets * offsets.pow (3 * (program.groups + 1) + program.loops)

/-- The answer of a run from a state, or that the limit has been reached. Steps are counted by
natural numbers. A counter of 64 bits never exceeds the limit `2 ^ 64 - 1`, so under that limit it
would let a run of `2 ^ 64` steps and more go on; under any other limit it counts alike. -/
def answer (machine : Machine) (limit : StepLimit) (config : Config) :
    Except Error (Option Match) :=
  match limit with
  | .atMost steps =>
    match machine.run steps config with
    | .halted answer _ => .ok answer
    | .paused _ => .error .timeout
  | .unlimited =>
    match machine.runStages (machine.threadBound + 3) 1 config with
    | some answer => .ok answer
    | none => .error .timeout

end Machine

/-- Tries to match a program at one offset of a text. -/
def attempt (program : Program) (text : Text) (limit : StepLimit) (anchoredEnd : Bool)
    (start : Nat) : Except Error (Option Match) :=
  let machine : Machine := ⟨program, text, anchoredEnd⟩
  machine.answer limit (machine.initial start)

/-- The number of steps that an attempt takes and its answer, if that number is no larger than
`bound`. -/
def stepsWithin? (bound : Nat) (program : Program) (text : Text) (anchoredEnd : Bool)
    (start : Nat) : Option (Nat × Option Match) :=
  let machine : Machine := ⟨program, text, anchoredEnd⟩
  match machine.run bound (machine.initial start) with
  | .halted answer left => some (bound - left, answer)
  | .paused _ => none

end RegexSearch
