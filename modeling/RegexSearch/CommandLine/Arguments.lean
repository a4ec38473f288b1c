import RegexSearch.Engine

/-!
The arguments of the command line. Options come first; the first argument that is no option is
the pattern, and everything behind it names a file, whatever it looks like.
-/

namespace RegexSearch

/-- What the options ask for. -/
structure Settings where
  /-- Print only the number of matches. -/
  countOnly : Bool := false
  /-- Print the number of the line in front of each match. -/
  lineNumbers : Bool := false
  /-- Print the tree and the program of the pattern first. -/
  dump : Bool := false
  options : Options := {}
  deriving DecidableEq, Repr

/-- What the arguments ask for. -/
structure Command where
  settings : Settings
  pattern : Bytes
  files : List Bytes
  deriving DecidableEq, Repr

/-- What is wrong with the arguments. -/
inductive Complaint where
  | missingPattern
  | missingValue (option : Bytes)
  | badValue (option value : Bytes)
  | unknownOption (option : Bytes)
  deriving DecidableEq, Repr

/-- The line that explains a complaint. A missing pattern is explained by the usage alone. -/
def Complaint.message : Complaint → Bytes
  | missingPattern => []
  | missingValue option => ascii "dgrep: " ++ option ++ ascii " requires a value\n"
  | badValue option value =>
    ascii "dgrep: bad value for " ++ option ++ ascii ": " ++ value ++ ascii "\n"
  | unknownOption option => ascii "dgrep: unknown option " ++ option ++ ascii "\n"

def usage : Bytes :=
  ascii "usage: dgrep [-c] [-n] [-d] [--steps N] [--cache N] PATTERN [FILE...]\n"

/-- A number in decimal digits that fits into 64 bits. -/
def readNumber? (value : Bytes) : Option Nat :=
  let number := value.foldl (fun total digit => total * 10 + digit.digitValue) 0
  if !value.isEmpty && value.all Byte.isDigit && number < UInt64.size then some number else none

/-- An argument is an option if it starts with a minus and has something behind it. A lone minus
is not an option: it names the standard input. -/
def isOption (argument : Bytes) : Bool :=
  match argument with
  | first :: _ :: _ => first.toChar == '-'
  | _ => false

namespace Settings

/-- Applies an option that takes no value. -/
def applyFlag? (settings : Settings) (argument : Bytes) : Option Settings :=
  if argument = ascii "-c" then some { settings with countOnly := true }
  else if argument = ascii "-n" then some { settings with lineNumbers := true }
  else if argument = ascii "-d" then some { settings with dump := true }
  else none

/-- The options that take a number, and what they set. -/
def numberOption? (settings : Settings) (argument : Bytes) : Option (Nat → Settings) :=
  if argument = ascii "--steps" then
    some fun steps => { settings with options.stepLimit := steps }
  else if argument = ascii "--cache" then
    some fun capacity => { settings with options.cacheCapacity := capacity }
  else none

end Settings

namespace Command

/-- The command whose pattern and files are the given arguments. -/
def ofOperands (settings : Settings) : List Bytes → Except Complaint Command
  | [] => .error .missingPattern
  | pattern :: files => .ok ⟨settings, pattern, files⟩

/-- Reads the arguments that follow the options already read. Two minus signs end the
options. -/
def parseFrom (settings : Settings) : List Bytes → Except Complaint Command
  | [] => .error .missingPattern
  | argument :: rest =>
    if !isOption argument then .ok ⟨settings, argument, rest⟩
    else if argument = ascii "--" then ofOperands settings rest
    else
      match settings.applyFlag? argument, settings.numberOption? argument with
      | some changed, _ => parseFrom changed rest
      | none, none => .error (.unknownOption argument)
      | none, some change =>
        match rest with
        | [] => .error (.missingValue argument)
        | value :: others =>
          match readNumber? value with
          | none => .error (.badValue argument value)
          | some number => parseFrom (change number) others

/-- Reads the arguments of the command line. -/
def parse (arguments : List Bytes) : Except Complaint Command :=
  parseFrom {} arguments

end Command

end RegexSearch
